-- SUMMARY: The files of the message store and of the configuration: saving by way of a temporary file, and loading.
import ReticulumMf.Lib.Files
import ReticulumMf.Lib.Paths
import ReticulumMf.Lib.Threads
import ReticulumMf.Lxmf.ConfigRoundTrip
import ReticulumMf.Lxmf.Hex
import ReticulumMf.Lxmf.Store

/-!
# Files of the store and of the configuration

`WriteToDirectory`, `SaveConfig` and `WriteDefaultConfigFile` write a temporary file and
rename it. Any number of calls run at once; every system call may fail, a write may be cut
short, and the process may end at any point and be started again on the disk as it is.

A file is known by its directory and its name there. One directory may be spelled in many
ways, by links too; which spellings mean the same one is left open.

Seen by directory and name, the disk is then a store in which each file is replaced at one
moment, provided that two calls for the same file do not overlap and none is for a file
named as a temporary one (`store_atomic`). What is read from a file is what the store held
at a moment during the call (`reads_see_store`), so that the file of a message is never
read half written (`message_file_whole`).
-/

namespace Lxmf

open Files Threads Transition

/-! ## Saving -/

def tmpSuffix : Bytes := textBytes ".tmp"

def tmpPath (path : Bytes) : Bytes := path ++ tmpSuffix

/-- A directory and a name in it. -/
structure Place where
  dir : Bytes
  name : Bytes
  deriving DecidableEq

def Place.tmp (p : Place) : Place := { p with name := p.name ++ tmpSuffix }

/-- What the calls find where they run: the texts of floats, and which directory is meant by
what stands before the name in a path. -/
structure Host where
  floats : FloatText
  dirOf : Bytes → Bytes

/-- What a path refers to. The file itself is not a link. A path that ends in a slash, in
`.` or in `..` names no file, and a call that saves there fails, as any call may here. -/
def Host.place (host : Host) (path : Bytes) : Place := ⟨host.dirOf (Paths.dirPart path), Paths.base path⟩

/-- The temporary file is in the same directory. -/
theorem Host.place_tmpPath (host : Host) (path : Bytes) : host.place (tmpPath path) = (host.place path).tmp := by
  have hslash : Paths.slash ∉ tmpSuffix := by decide
  simp only [Host.place, Place.tmp, tmpPath, Paths.dirPart_append hslash, Paths.base_append hslash]

/-- The error of a system call, as its text. -/
abbrev SysError := Bytes

inductive SaveError where
  | noHash
  | pack (err : PackContainerError)
  | write (tmp : Bytes) (err : SysError)
  | rename (full : Bytes) (err : SysError)
  | os (err : SysError)
  deriving DecidableEq

/-- A file to be saved. `WriteToDirectory` says in its errors what failed, and removes the
temporary file if it cannot be renamed. -/
structure Save where
  path : Bytes
  place : Place
  tmp : Place
  data : Bytes
  inDirectory : Bool
  tmp_eq : tmp = place.tmp
  deriving DecidableEq

def Save.writeError (w : Save) (err : SysError) : SaveError :=
  if w.inDirectory then .write (tmpPath w.path) err else .os err

def Save.renameError (w : Save) (err : SysError) : SaveError :=
  if w.inDirectory then .rename w.path err else .os err

def Host.save (host : Host) (path data : Bytes) (inDirectory : Bool) : Save where
  path
  place := host.place path
  tmp := host.place (tmpPath path)
  data
  inDirectory
  tmp_eq := host.place_tmpPath path

/-- `WriteToDirectory` up to its first system call. -/
def writeToDirectory (host : Host) (msg : LXMessage) (dir : Bytes) : Except SaveError Save :=
  if msg.hash.length = 0 then .error .noHash
  else do
    let data ← (packContainer msg).mapError .pack
    return host.save (Paths.join dir (encodeToString msg.hash)) data true

def saveConfig (host : Host) (cfg : Config) (path : Bytes) : Save :=
  host.save path (writeConfig host.floats cfg) false

def defaultConfigText : String :=
  "# This is an LXM Daemon config file.
# It is a plaintext sectioned key=value file. Lines starting with '#'
# are comments. List values are comma separated. Boolean values accept
# yes/no, true/false, 1/0, on/off.

[propagation]

# Whether this daemon should run as a propagation node.
enable_node = no

# Optional human-readable node name advertised in propagation announces.
# node_name = Anonymous Propagation Node

# Identity hashes allowed to issue control commands to this node.
# control_allowed = 7d7e542829b40f32364499b27438dba8, 437229f8e29598b2282b88bad5e44698

# Automatic announce interval in minutes (6 hours by default).
announce_interval = 360

# Whether to announce the propagation destination at startup.
announce_at_start = yes

# Whether to automatically peer with other propagation nodes on the network.
autopeer = yes

# Maximum hop depth for automatically peered nodes.
autopeer_maxdepth = 6

# Maximum disk usage for the propagation message store, in megabytes.
# message_storage_limit = 500

# Maximum accepted size of a single incoming propagation message, in KB.
# propagation_message_max_accepted_size = 256

# Maximum accepted size of a single inbound propagation node sync, in KB.
# propagation_sync_max_accepted_size = 10240

# Target stamp cost required to deliver messages via this node.
# propagation_stamp_cost_target = 16

# Stamp cost flexibility (in bits below target accepted from peers).
# propagation_stamp_cost_flexibility = 3

# Peering key cost target required for remote nodes peering with this node.
# peering_cost = 18

# Maximum acceptable peering cost when peering with remote nodes.
# remote_peering_cost_max = 26

# Destinations whose messages should be retained preferentially.
# prioritise_destinations = 41d20c727598a3fbbdf9106133a3a0ed, d924b81822ca24e68e2effea99bcb8cf

# Maximum number of automatically peered nodes.
# max_peers = 20

# Static peer destination hashes to always peer with.
# static_peers = e17f833c4ddf8890dd3a79a6fea8161d, 5a2d0029b6e5ec87020abaea0d746da4

# When yes, only accept inbound propagation traffic from configured static peers.
# from_static_only = no

# Whether to require client identity authentication for sync requests.
auth_required = no


[lxmf]

# Display name advertised by the local LXMF delivery destination.
display_name = Anonymous Peer

# Whether to announce the local delivery destination at startup.
announce_at_start = no

# Optional automatic announce interval, in minutes.
# announce_interval = 360

# Maximum unpacked size of inbound delivery messages, in kilobytes.
delivery_transfer_max_accepted_size = 1000

# Optional command executed for every received message. The full path of
# the saved message file is appended as a single quoted argument.
# on_inbound = rm


[logging]
# Valid log levels are 1 through 7:
#   1: Critical
#   2: Error
#   3: Warning
#   4: Info / Notice (default)
#   5: Verbose
#   6: Debug
#   7: Extreme
loglevel = 4
"

def writeDefaultConfigFile (host : Host) (path : Bytes) : Save :=
  host.save path (textBytes defaultConfigText) false

/-! ## System calls -/

/-- What a system call returns: the number of bytes moved, or an error. -/
inductive SysResult where
  | done (n : Nat)
  | error (err : SysError)

/-- What a call returned. -/
inductive FileResult where
  | saved (w : Save)
  | failed (w : Save) (err : SaveError)
  | read (place : Place) (data : Bytes)
  | notRead (place : Place) (err : SysError)
  deriving DecidableEq

inductive FileAct where
  | openTmp (w : Save)
  | writeTmp (w : Save) (file off : Nat)
  | closeTmp (w : Save)
  | rename (w : Save)
  | removeTmp (w : Save) (err : SysError)
  | openFile (place : Place)
  | readFile (place : Place) (file : Nat) (got : Bytes)

/-- The disk, and what the calls have returned so far, each with its thread. -/
structure FileState where
  disk : Disk Place
  log : List (Nat × FileResult)

def FileState.note (s : FileState) (t : Nat) (r : FileResult) : FileState :=
  { s with log := s.log ++ [(t, r)] }

def unexpectedEOF : SysError := textBytes "unexpected EOF"
def notExist : SysError := textBytes "no such file or directory"

/-- A rename that failed. -/
def renameFailed (t : Nat) (s : FileState) (w : Save) (err : SysError) : Effect FileState FileAct :=
  if w.inDirectory then { shared := s, push := [.removeTmp w err] }
  else { shared := s.note t (.failed w (w.renameError err)) }

def fileAct (t : Nat) (x : SysResult) (s : FileState) : FileAct → Option (Effect FileState FileAct)
  | .openTmp w =>
    match x with
    | .error err => some { shared := s.note t (.failed w (w.writeError err)) }
    | .done _ =>
      some
        { shared := { s with disk := s.disk.create w.tmp }
          push := [.writeTmp w (s.disk.fileAt w.tmp) 0] }
  | .writeTmp w file off =>
    match x with
    | .error err => some { shared := s.note t (.failed w (w.writeError err)) }
    | .done n =>
      let bs := (w.data.drop off).take n
      let s' := { s with disk := s.disk.write file off bs }
      if w.data.length ≤ off + bs.length then some { shared := s', push := [.closeTmp w] }
      else if bs = [] then some { shared := s'.note t (.failed w (w.writeError unexpectedEOF)) }
      else some { shared := s', push := [.writeTmp w file (off + bs.length)] }
  | .closeTmp w =>
    match x with
    | .error err => some { shared := s.note t (.failed w (w.writeError err)) }
    | .done _ => some { shared := s, push := [.rename w] }
  | .rename w =>
    match x with
    | .error err => some (renameFailed t s w err)
    | .done _ =>
      match s.disk.rename w.tmp w.place with
      | none => some (renameFailed t s w notExist)
      | some disk => some { shared := { s with disk }.note t (.saved w) }
  | .removeTmp w err =>
    match x with
    | .error _ => some { shared := s.note t (.failed w (w.renameError err)) }
    | .done _ =>
      some { shared := { s with disk := s.disk.remove w.tmp }.note t (.failed w (w.renameError err)) }
  | .openFile place =>
    match x with
    | .error err => some { shared := s.note t (.notRead place err) }
    | .done _ =>
      match s.disk.names place with
      | none => some { shared := s.note t (.notRead place notExist) }
      | some file => some { shared := s, push := [.readFile place file []] }
  | .readFile place file got =>
    match x with
    | .error err => some { shared := s.note t (.notRead place err) }
    | .done n =>
      if (s.disk.bytes file).length ≤ got.length then some { shared := s.note t (.read place got) }
      else
        some { shared := s, push := [.readFile place file (got ++ ((s.disk.bytes file).drop got.length).take n)] }

/-- The calls. `ReadFromFile` and `LoadConfig` clean the path and read the file before they
decode it. -/
inductive FileCall where
  | writeToDirectory (msg : LXMessage) (dir : Bytes)
  | saveConfig (cfg : Config) (path : Bytes)
  | writeDefaultConfigFile (path : Bytes)
  | load (path : Bytes)

section

variable (host : Host)

/-- The file that a call saves. -/
def FileCall.save : FileCall → Option Save
  | .writeToDirectory msg dir => (Lxmf.writeToDirectory host msg dir).toOption
  | .saveConfig cfg path => some (Lxmf.saveConfig host cfg path)
  | .writeDefaultConfigFile path => some (Lxmf.writeDefaultConfigFile host path)
  | .load _ => none

def fileEnv (s : FileState) (call : FileCall) : Option (Effect FileState FileAct) :=
  match call with
  | .load path => some { shared := s, spawn := [[.openFile (host.place (Paths.clean path))]] }
  | call =>
    match call.save host with
    | some w => some { shared := s, spawn := [[.openTmp w]] }
    | none => some { shared := s }

def fileProgram : Program FileState FileAct SysResult FileCall where
  act := fileAct
  env := fileEnv host

abbrev FileConf := Threads.Config FileState FileAct

inductive FileEvent where
  | crash
  | step (e : Event SysResult FileCall)

/-- After a crash the calls are gone, and the disk is as it was. -/
def fileStep (c : FileConf) : FileEvent → Option FileConf
  | .crash => some ⟨c.shared, []⟩
  | .step e => (fileProgram host).step c e

end

def fileInit (disk : Disk Place) : FileConf := ⟨⟨disk, []⟩, []⟩

/-! ## The store -/

/-- The store in which a file is replaced at one moment. -/
abbrev FileStore := Place → Option Bytes

def FileStore.apply (store : FileStore) (entry : Nat × FileResult) : FileStore :=
  match entry.2 with
  | .saved w => Function.update store w.place (some w.data)
  | _ => store

/-- The store after what has been returned. -/
def stored (start : FileStore) (log : List (Nat × FileResult)) : FileStore := log.foldl FileStore.apply start

theorem stored_append {start : FileStore} {log log' : List (Nat × FileResult)} :
    stored start (log ++ log') = stored (stored start log) log' := List.foldl_append

/-- A file depends on what has been saved to it only. -/
theorem stored_congr {store store' : FileStore} {log : List (Nat × FileResult)} {place : Place}
    (h : store place = store' place) : stored store log place = stored store' log place := by
  induction log generalizing store store' with
  | nil => exact h
  | cons entry log ih =>
    obtain ⟨t, res⟩ := entry
    refine ih ?_
    cases res with
    | saved w =>
      simp only [FileStore.apply]
      by_cases hw : place = w.place
      · rw [hw, Function.update_self, Function.update_self]
      · rw [Function.update_of_ne hw, Function.update_of_ne hw, h]
    | failed w err | read place data | notRead place err => exact h

/-- The name is that of a temporary file. -/
def IsTmp (place : Place) : Prop := tmpSuffix <:+ place.name

instance instDecidableIsTmp {place : Place} : Decidable (IsTmp place) :=
  inferInstanceAs (Decidable (tmpSuffix <:+ place.name))

theorem Save.isTmp (w : Save) : IsTmp w.tmp := w.tmp_eq ▸ List.suffix_append w.place.name tmpSuffix

theorem ne_tmp {p q : Place} (h : ¬IsTmp p) (hq : IsTmp q) : p ≠ q := fun heq => h (heq ▸ hq)

/-- What is saved by the call that the action is part of. -/
def FileAct.save : FileAct → Option Save
  | .openTmp w | .writeTmp w _ _ | .closeTmp w | .rename w | .removeTmp w _ => some w
  | .openFile _ | .readFile _ _ _ => none

/-- The action is part of a call with this temporary file. -/
def FileAct.uses (tmp : Place) (a : FileAct) : Bool := a.save.any (·.tmp = tmp)

theorem FileAct.uses_self {a : FileAct} {w : Save} (h : a.save = some w) : a.uses w.tmp = true := by
  simp [FileAct.uses, h]

/-- A call is made for a file that no other call is saving, and that is not named as a
temporary one. -/
def orderly (host : Host) (c : FileConf) : FileEvent → Bool
  | .step (.env call) =>
    match call.save host with
    | some w => pending (FileAct.uses w.tmp) c = 0 ∧ ¬IsTmp w.place
    | none => true
  | _ => true

variable {host : Host} {d d' : Disk Place} {s : FileState} {t : Nat} {x : SysResult}
  {a b : FileAct} {r : Effect FileState FileAct} {c c' : FileConf} {start : FileStore}

/-! ## Temporary files -/

/-- The file is nobody's temporary one, nor will it be. -/
structure Settled (d : Disk Place) (file : Nat) : Prop where
  lt : file < d.next
  names : ∀ {tmp}, IsTmp tmp → d.names tmp ≠ some file

theorem settled_of_names {place : Place} {file : Nat} (hplace : ¬IsTmp place)
    (h : d.names place = some file) : Settled d file :=
  ⟨d.used h, fun htmp hnames => ne_tmp hplace htmp (d.inj h hnames)⟩

/-- What an action relies on when it is reached. -/
def FileAct.Ready (d : Disk Place) : FileAct → Prop
  | .openTmp w | .removeTmp w _ => ¬IsTmp w.place
  | .writeTmp w file off =>
    ¬IsTmp w.place ∧ d.names w.tmp = some file ∧ d.bytes file = w.data.take off ∧ off ≤ w.data.length
  | .closeTmp w | .rename w => ¬IsTmp w.place ∧ d.content w.tmp = some w.data
  | .openFile _ => True
  | .readFile place file got => ¬IsTmp place → Settled d file ∧ got <+: d.bytes file

/-- What an action does to the disk: it may change the temporary file of the call it is part
of, and no file that is settled. -/
structure Confined (a : FileAct) (d d' : Disk Place) : Prop where
  names : ∀ {tmp}, IsTmp tmp → a.uses tmp = false → d'.names tmp = d.names tmp
  bytes : ∀ {tmp file}, IsTmp tmp → a.uses tmp = false → d.names tmp = some file →
    d'.bytes file = d.bytes file
  settled : ∀ {file}, Settled d file → Settled d' file ∧ d'.bytes file = d.bytes file

theorem Confined.refl : Confined a d d :=
  ⟨fun _ _ => rfl, fun _ _ _ => rfl, fun h => ⟨h, rfl⟩⟩

theorem Confined.content {tmp : Place} (h : Confined a d d') (htmp : IsTmp tmp) (ha : a.uses tmp = false) :
    d'.content tmp = d.content tmp :=
  Disk.content_congr (h.names htmp ha) fun _ => h.bytes htmp ha

/-- An action of another call can still rely on what it relied on. -/
theorem Confined.ready (h : Confined a d d') (hother : ∀ tmp, a.uses tmp = true → b.uses tmp = false)
    (hb : b.Ready d) : b.Ready d' := by
  have huses {w : Save} (hw : b.uses w.tmp = true) : a.uses w.tmp = false := by
    by_contra ha
    simp [hother w.tmp (by simpa using ha)] at hw
  cases b with
  | openTmp w | removeTmp w err => exact hb
  | writeTmp w file off =>
    obtain ⟨hplace, hnames, hbytes, hoff⟩ := hb
    have hw := huses (FileAct.uses_self (w := w) rfl)
    exact ⟨hplace, (h.names w.isTmp hw).trans hnames, (h.bytes w.isTmp hw hnames).trans hbytes, hoff⟩
  | closeTmp w | rename w =>
    obtain ⟨hplace, hcontent⟩ := hb
    have hw := huses (FileAct.uses_self (w := w) rfl)
    exact ⟨hplace, (h.content w.isTmp hw).trans hcontent⟩
  | openFile place => exact trivial
  | readFile place file got =>
    intro hplace
    obtain ⟨hsettled, hgot⟩ := hb hplace
    obtain ⟨hsettled, hbytes⟩ := h.settled hsettled
    exact ⟨hsettled, hbytes ▸ hgot⟩

section Confined

variable {w : Save} (ha : a.uses w.tmp = true)

include ha

theorem ne_of_not_uses {tmp : Place} (h : a.uses tmp = false) : tmp ≠ w.tmp := by
  rintro rfl
  exact absurd (ha.symm.trans h) (by simp)

theorem confined_create : Confined a d (d.create w.tmp) where
  names _ h := Disk.create_names_of_ne (ne_of_not_uses ha h)
  bytes _ h hfile := Disk.create_bytes_of_names hfile (ne_of_not_uses ha h)
  settled := by
    intro file h
    have hne : file ≠ d.fileAt w.tmp := by
      intro heq
      cases hfile : d.names w.tmp with
      | none =>
        rw [Disk.fileAt, hfile, Option.getD_none] at heq
        exact absurd h.lt (heq ▸ Nat.lt_irrefl _)
      | some i =>
        rw [Disk.fileAt, hfile, Option.getD_some] at heq
        exact h.names w.isTmp (heq ▸ hfile)
    refine ⟨⟨Nat.lt_of_lt_of_le h.lt Disk.le_create_next, fun {tmp} htmp hfile => ?_⟩,
      Disk.create_bytes_of_ne hne⟩
    by_cases heq : tmp = w.tmp
    · rw [heq, Disk.create_names_self, Option.some.injEq] at hfile
      exact hne hfile.symm
    · rw [Disk.create_names_of_ne heq] at hfile
      exact h.names htmp hfile

theorem confined_write {file off : Nat} {bs : Bytes} (hfile : d.names w.tmp = some file) :
    Confined a d (d.write file off bs) where
  names _ _ := rfl
  bytes _ h hnames := Disk.write_bytes_of_names hfile hnames (ne_of_not_uses ha h)
  settled h := ⟨⟨h.lt, h.names⟩, Disk.write_bytes_of_ne fun heq => h.names w.isTmp (heq ▸ hfile)⟩

theorem confined_rename (hplace : ¬IsTmp w.place) (h : d.Renamed w.tmp w.place d') : Confined a d d' where
  names htmp hother := h.other (ne_of_not_uses ha hother) (ne_tmp hplace htmp).symm
  bytes _ _ _ := by rw [h.bytes]
  settled := by
    intro file hsettled
    refine ⟨⟨h.next ▸ hsettled.lt, fun {tmp} htmp hfile => ?_⟩, by rw [h.bytes]⟩
    by_cases heq : tmp = w.tmp
    · rw [heq, h.source (ne_tmp hplace w.isTmp).symm] at hfile
      cases hfile
    · rw [h.other heq (ne_tmp hplace htmp).symm] at hfile
      exact hsettled.names htmp hfile

theorem confined_remove : Confined a d (d.remove w.tmp) where
  names _ h := Disk.remove_names_of_ne (ne_of_not_uses ha h)
  bytes _ _ _ := rfl
  settled := by
    intro file h
    refine ⟨⟨h.lt, fun {tmp} htmp hfile => ?_⟩, rfl⟩
    by_cases heq : tmp = w.tmp
    · rw [heq, Disk.remove_names_self] at hfile
      cases hfile
    · rw [Disk.remove_names_of_ne heq] at hfile
      exact h.names htmp hfile

end Confined

/-! ## One action -/

/-- What an action that returns may report. -/
def FileAct.Returns (d : Disk Place) (a : FileAct) : FileResult → Prop
  | .saved w => a = .rename w
  | .failed w _ => a.save = some w
  | .read place data => ∃ file, a = .readFile place file data ∧ (d.bytes file).length ≤ data.length
  | .notRead place _ => a = .openFile place ∨ ∃ file got, a = .readFile place file got

/-- The action leads to reading the file under the name. -/
def FileAct.Reads (d : Disk Place) (place : Place) (file : Nat) (a : FileAct) : Prop :=
  (∃ got, a = .readFile place file got) ∨ a = .openFile place ∧ d.names place = some file

/-- An action and the one that its call goes on with. -/
structure FileAct.Continues (d : Disk Place) (a b : FileAct) : Prop where
  save : b.save = a.save
  reads : ∀ {place file got}, b = .readFile place file got → a.Reads d place file

theorem FileAct.Continues.of_save {w : Save} (hb : b.save = some w) (ha : a.save = some w) :
    a.Continues d b where
  save := hb.trans ha.symm
  reads := by
    rintro place file got rfl
    cases hb

/-- What an action does to a state in which it can rely on what it needs. -/
structure FileStep (t : Nat) (s : FileState) (a : FileAct) (r : Effect FileState FileAct) : Prop where
  spawn : r.spawn = []
  confined : Confined a s.disk r.shared.disk
  log : ∃ new, r.shared.log = s.log ++ new ∧ (∀ entry ∈ new, entry.1 = t ∧ a.Returns s.disk entry.2) ∧
    ∀ {place}, ¬IsTmp place → r.shared.disk.content place = stored s.disk.content new place
  push : r.push = [] ∨ ∃ b, r.push = [b] ∧ b.Ready r.shared.disk ∧ a.Continues s.disk b

theorem FileStep.of_mem_push (h : FileStep t s a r) (hb : b ∈ r.push) :
    b.Ready r.shared.disk ∧ a.Continues s.disk b := by
  obtain hpush | ⟨b', hpush, hready⟩ := h.push
  · simp [hpush] at hb
  · rw [hpush, List.mem_singleton] at hb
    exact hb ▸ hready

/-- The call goes on, with nothing to be seen yet. -/
theorem FileStep.goes (hspawn : r.spawn = []) (hlog : r.shared.log = s.log)
    (hconfined : Confined a s.disk r.shared.disk)
    (hcontent : ∀ {place}, ¬IsTmp place → r.shared.disk.content place = s.disk.content place)
    (hpush : r.push = [b]) (hready : b.Ready r.shared.disk) (hcont : a.Continues s.disk b) :
    FileStep t s a r where
  spawn := hspawn
  confined := hconfined
  log := ⟨[], by rw [hlog, List.append_nil], by simp, hcontent⟩
  push := .inr ⟨b, hpush, hready, hcont⟩

/-- The call returns without having saved anything. -/
theorem FileStep.ends {res : FileResult} (hlog : r.shared.log = s.log ++ [(t, res)])
    (hres : ∀ w, res ≠ .saved w) (hreturns : a.Returns s.disk res) (hspawn : r.spawn = []) (hpush : r.push = [])
    (hconfined : Confined a s.disk r.shared.disk)
    (hcontent : ∀ {place}, ¬IsTmp place → r.shared.disk.content place = s.disk.content place) :
    FileStep t s a r where
  spawn := hspawn
  confined := hconfined
  log := by
    refine ⟨_, hlog, by simpa using hreturns, fun hplace => ?_⟩
    rw [hcontent hplace]
    cases res with
    | saved w => exact absurd rfl (hres w)
    | failed w err | read place data | notRead place err => rfl
  push := .inl hpush

theorem FileStep.note {res : FileResult} (hres : ∀ w, res ≠ .saved w) (hreturns : a.Returns s.disk res) :
    FileStep t s a { shared := s.note t res } :=
  .ends rfl hres hreturns rfl rfl .refl fun _ => rfl

theorem FileStep.failed {w : Save} {err : SaveError} (ha : a.save = some w) :
    FileStep t s a { shared := s.note t (.failed w err) } :=
  .note (by simp) ha

theorem renameFailed_step {w : Save} {err : SysError} (hw : ¬IsTmp w.place) :
    FileStep t s (.rename w) (renameFailed t s w err) := by
  unfold renameFailed
  split
  · exact .goes rfl rfl .refl (fun _ => rfl) rfl hw (.of_save rfl rfl)
  · exact .failed rfl

theorem fileAct_step (h : fileAct t x s a = some r) (ha : a.Ready s.disk) : FileStep t s a r := by
  cases a with
  | openTmp w =>
    cases x with
    | error err =>
      cases h
      exact .failed rfl
    | done n =>
      cases h
      refine .goes rfl rfl (confined_create (FileAct.uses_self rfl)) (fun hplace => ?_) rfl ?_ (.of_save rfl rfl)
      · exact Disk.content_create_of_ne (ne_tmp hplace w.isTmp)
      · exact ⟨ha, Disk.create_names_self, Disk.create_bytes_self, Nat.zero_le _⟩
  | writeTmp w file off =>
    obtain ⟨hw, hfile, hbytes, hoff⟩ := ha
    cases x with
    | error err =>
      cases h
      exact .failed rfl
    | done n =>
      have hlength : (s.disk.bytes file).length = off := by
        rw [hbytes, List.length_take, Nat.min_eq_left hoff]
      -- the file ends where the call goes on writing
      have hwritten : (s.disk.write file off ((w.data.drop off).take n)).bytes file =
          w.data.take (off + ((w.data.drop off).take n).length) := by
        rw [Disk.write_bytes_self, ← hlength, Disk.splice_length, hlength, hbytes, List.take_add,
          List.length_take, ← List.take_eq_take_min]
      have hconfined : Confined (.writeTmp w file off) s.disk
          (s.disk.write file off ((w.data.drop off).take n)) :=
        confined_write (FileAct.uses_self rfl) hfile
      have hcontent : ∀ {place}, ¬IsTmp place →
          (s.disk.write file off ((w.data.drop off).take n)).content place = s.disk.content place :=
        fun hplace => Disk.content_write_of_ne hfile (ne_tmp hplace w.isTmp)
      simp only [fileAct] at h
      split_ifs at h with hall hnone
      · cases h
        refine .goes rfl rfl hconfined hcontent rfl ⟨hw, ?_⟩ (.of_save rfl rfl)
        rw [List.take_of_length_le hall] at hwritten
        have htmp : (s.disk.write file off ((w.data.drop off).take n)).names w.tmp = some file := hfile
        exact (Disk.content_eq htmp).trans (congrArg some hwritten)
      · cases h
        exact .ends rfl (by simp) rfl rfl rfl hconfined hcontent
      · cases h
        exact .goes rfl rfl hconfined hcontent rfl ⟨hw, hfile, hwritten, by omega⟩ (.of_save rfl rfl)
  | closeTmp w =>
    cases x with
    | error err =>
      cases h
      exact .failed rfl
    | done n =>
      cases h
      exact .goes rfl rfl .refl (fun _ => rfl) rfl ha (.of_save rfl rfl)
  | rename w =>
    obtain ⟨hw, hcontent⟩ := ha
    cases x with
    | error err =>
      cases h
      exact renameFailed_step hw
    | done n =>
      simp only [fileAct] at h
      split at h
      · cases h
        exact renameFailed_step hw
      · rename_i disk hrename
        cases h
        have hrenamed := Disk.renamed hrename
        refine ⟨rfl, confined_rename (FileAct.uses_self rfl) hw hrenamed,
          ⟨_, rfl, by simp [FileAct.Returns], fun {place} hplace => ?_⟩, .inl rfl⟩
        simp only [stored, List.foldl_cons, List.foldl_nil, FileStore.apply]
        by_cases heq : place = w.place
        · rw [heq, Function.update_self]
          exact hrenamed.content_target.trans hcontent
        · rw [Function.update_of_ne heq]
          exact hrenamed.content_of_ne (ne_tmp hplace w.isTmp) heq
  | removeTmp w err =>
    cases x with
    | error err' =>
      cases h
      exact .failed rfl
    | done n =>
      cases h
      exact .ends rfl (by simp) rfl rfl rfl (confined_remove (FileAct.uses_self rfl)) fun hplace =>
        Disk.content_remove_of_ne (ne_tmp hplace w.isTmp)
  | openFile place =>
    cases x with
    | error err =>
      cases h
      exact .note (by simp) (.inl rfl)
    | done n =>
      simp only [fileAct] at h
      split at h
      · cases h
        exact .note (by simp) (.inl rfl)
      · rename_i file hfile
        cases h
        refine .goes rfl rfl .refl (fun _ => rfl) rfl (fun hplace => ?_) ⟨rfl, ?_⟩
        · exact ⟨settled_of_names hplace hfile, List.nil_prefix⟩
        · rintro _ _ _ ⟨⟩
          exact .inr ⟨rfl, hfile⟩
  | readFile place file got =>
    cases x with
    | error err =>
      cases h
      exact .note (by simp) (.inr ⟨file, got, rfl⟩)
    | done n =>
      simp only [fileAct] at h
      split_ifs at h with hall
      · cases h
        exact .note (by simp) ⟨file, rfl, hall⟩
      · cases h
        refine .goes rfl rfl .refl (fun _ => rfl) rfl (fun hplace => ?_) ⟨rfl, ?_⟩
        · obtain ⟨hsettled, more, hmore⟩ := ha hplace
          refine ⟨hsettled, ?_⟩
          rw [← hmore, List.drop_left, List.prefix_append_right_inj]
          exact List.take_prefix n more
        · rintro _ _ _ ⟨⟩
          exact .inl ⟨got, rfl⟩

/-! ## Whole runs -/

/-- The disk holds what the store holds, and the calls do not get in each other's way. -/
structure StoreInv (start : FileStore) (c : FileConf) : Prop where
  content : ∀ {place}, ¬IsTmp place → c.shared.disk.content place = stored start c.shared.log place
  ready : Each (fun s _ as => ∀ a ∈ as, a.Ready s.disk) c
  single : ∀ tmp, pending (FileAct.uses tmp) c ≤ 1

theorem StoreInv.run {rest : List FileAct} (h : StoreInv start c)
    (hthread : c.threads[t]? = some (a :: rest)) (hact : fileAct t x c.shared a = some r) :
    StoreInv start ⟨r.shared, c.threads.set t (r.push ++ rest) ++ r.spawn⟩ := by
  have hstep := fileAct_step hact (h.ready t _ hthread a List.mem_cons_self)
  refine ⟨fun {place} hplace => ?_, ?_, fun tmp => ?_⟩
  · obtain ⟨new, hlog, -, hcontent⟩ := hstep.log
    calc r.shared.disk.content place = stored c.shared.disk.content new place := hcontent hplace
      _ = stored (stored start c.shared.log) new place := stored_congr (h.content hplace)
      _ = stored start r.shared.log place := by rw [hlog, stored_append]
  · refine Each.forall_run_of_others h.ready hthread (fun b hb hready => ?_) fun b hb => ?_
    · refine hstep.confined.ready (fun tmp huses => ?_) hready
      exact alone_of_pending_le (h.single tmp) hthread huses hb
    · obtain hb | ⟨as, has, -⟩ := hb
      · exact (hstep.of_mem_push hb).1
      · simp [hstep.spawn] at has
  · have hcount := pending_run (p := FileAct.uses tmp) (r := r) hthread
    have hpush : r.push.countP (FileAct.uses tmp) ≤ [a].countP (FileAct.uses tmp) := by
      obtain hpush | ⟨b, hpush, -, hcont⟩ := hstep.push
      · simp [hpush]
      · have huses : b.uses tmp = a.uses tmp := by simp only [FileAct.uses, hcont.save]
        simp [hpush, huses]
    have hold := h.single tmp
    rw [hstep.spawn] at hcount ⊢
    simp only [List.map_nil, List.sum_nil] at hcount
    omega

theorem FileCall.cases_env {call : FileCall} (henv : fileEnv host s call = some r) :
    r.shared = s ∧ (r.spawn = [] ∨ (∃ place, r.spawn = [[.openFile place]]) ∨
      ∃ w, call.save host = some w ∧ r.spawn = [[.openTmp w]]) := by
  unfold fileEnv at henv
  split at henv
  · cases henv
    exact ⟨rfl, .inr (.inl ⟨_, rfl⟩)⟩
  · split at henv
    · rename_i hsave
      cases henv
      exact ⟨rfl, .inr (.inr ⟨_, hsave, rfl⟩)⟩
    · cases henv
      exact ⟨rfl, .inl rfl⟩

theorem orderly_env {call : FileCall} {w : Save} (h : orderly host c (.step (.env call)) = true)
    (hsave : call.save host = some w) : pending (FileAct.uses w.tmp) c = 0 ∧ ¬IsTmp w.place := by
  simpa only [orderly, hsave, decide_eq_true_eq] using h

theorem StoreInv.env {call : FileCall} (h : StoreInv start c) (hcall : orderly host c (.step (.env call)) = true)
    (henv : fileEnv host c.shared call = some r) : StoreInv start ⟨r.shared, c.threads ++ r.spawn⟩ := by
  obtain ⟨hshared, hspawn⟩ := FileCall.cases_env henv
  refine ⟨fun hplace => hshared ▸ h.content hplace, ?_, fun tmp => ?_⟩
  · refine Each.forall_env h.ready (fun b hb => hshared ▸ hb) fun as has b hb => ?_
    obtain hnone | ⟨place, hload⟩ | ⟨w, hsave, hopen⟩ := hspawn
    · simp [hnone] at has
    · simp only [hload, List.mem_singleton] at has
      subst has
      cases List.mem_singleton.mp hb
      exact trivial
    · simp only [hopen, List.mem_singleton] at has
      subst has
      cases List.mem_singleton.mp hb
      exact (orderly_env hcall hsave).2
  · have hold := h.single tmp
    rw [pending_env]
    obtain hnone | ⟨place, hload⟩ | ⟨w, hsave, hopen⟩ := hspawn
    · simpa [hnone] using hold
    · simpa [hload, FileAct.uses, FileAct.save] using hold
    · by_cases htmp : w.tmp = tmp
      · subst htmp
        simp [hopen, FileAct.uses, FileAct.save, (orderly_env hcall hsave).1]
      · simpa [hopen, FileAct.uses, FileAct.save, htmp] using hold

theorem StoreInv.step {e : FileEvent} (h : StoreInv start c) (hstep : fileStep host c e = some c')
    (horderly : orderly host c e = true) : StoreInv start c' := by
  cases e with
  | crash =>
    cases hstep
    exact ⟨h.content, fun _ _ hthread => by simp at hthread, fun tmp => by simp [pending]⟩
  | step e =>
    cases Program.steps_of_step hstep with
    | run hthread hact => exact h.run hthread hact
    | env henv => exact h.env horderly henv

theorem fileInit_inv (disk : Disk Place) : StoreInv disk.content (fileInit disk) :=
  ⟨fun _ => rfl, fun _ _ hthread => by simp [fileInit] at hthread, fun tmp => by simp [fileInit, pending]⟩

/-- Calls for one file do not overlap, and no file is named as a temporary one. -/
abbrev Orderly (host : Host) (c : FileConf) (es : List FileEvent) : Prop :=
  AllSteps (fileStep host) (fun c e => orderly host c e = true) c es

theorem storeInv_of_run {disk : Disk Place} {es : List FileEvent} (horderly : Orderly host (fileInit disk) es)
    (hrun : run (fileStep host) (fileInit disk) es = some c) : StoreInv disk.content c :=
  run_of_good StoreInv.step (fileInit_inv disk) horderly hrun

/-! ## Names of message files -/

theorem isHexDigit_of_mem {hash : Bytes} {b : UInt8} (hb : b ∈ encodeToString hash) : isHexDigit b = true :=
  (decodeString_accepts_iff.mp ⟨hash, decodeString_encodeToString hash⟩).1 b hb

theorem plain_encodeToString {hash : Bytes} (h : hash ≠ []) : Paths.Plain (encodeToString hash) := by
  have hdot : (0x2e : UInt8) ∉ encodeToString hash := fun hmem => absurd (isHexDigit_of_mem hmem) (by decide)
  refine ⟨fun hnil => h (encodeToString_inj hnil), fun heq => hdot ?_, fun heq => hdot ?_, fun hmem => ?_⟩
  · rw [heq]
    decide
  · rw [heq]
    decide
  · exact absurd (isHexDigit_of_mem hmem) (by decide)

/-- The file of a message with this hash. -/
def messagePath (dir hash : Bytes) : Bytes := Paths.join dir (encodeToString hash)

theorem name_messagePath {dir hash : Bytes} (h : hash ≠ []) :
    (host.place (messagePath dir hash)).name = encodeToString hash :=
  Paths.base_join (plain_encodeToString h)

/-- The name ends in a digit, not as that of a temporary file. -/
theorem not_isTmp_of_name {place : Place} {hash : Bytes} (hname : place.name = encodeToString hash) :
    ¬IsTmp place := by
  rintro ⟨front, hfront⟩
  rw [hname] at hfront
  have hlast := congrArg List.getLast? hfront
  rw [List.getLast?_append_of_ne_nil _ (by decide)] at hlast
  exact absurd (isHexDigit_of_mem (List.mem_of_getLast? hlast.symm)) (by decide)

theorem writeToDirectory_ok {msg : LXMessage} {dir : Bytes} {w : Save}
    (h : writeToDirectory host msg dir = .ok w) :
    msg.hash ≠ [] ∧ packContainer msg = .ok w.data ∧ w.place = host.place (messagePath dir msg.hash) := by
  unfold writeToDirectory at h
  split_ifs at h with hempty
  obtain ⟨data, hdata, hw⟩ := Except.bind_eq_ok_iff.mp h
  cases hw
  exact ⟨fun hnil => hempty (by rw [hnil]; rfl), Except.mapError_eq_ok_iff.mp hdata, rfl⟩

/-! ## A sample run -/

/-- There are no links among the directories, so that a path refers to what it cleans to. -/
def sampleHost : Host := ⟨bitText, Paths.clean⟩

def sampleDir : Bytes := textBytes "/var/lib/lxmf/"

def samplePlace (hash : UInt8) : Place := sampleHost.place (messagePath sampleDir [hash])

def sampleStored (hash : UInt8) : LXMessage := { sentMessage [hash, 2, 3] with hash := [hash] }

/-- Two messages are stored at the same time. The process ends when one of them has been
stored and the other is being written. -/
def sampleFileCrash : List FileEvent :=
  [.step (.env (.writeToDirectory (sampleStored 0xab) sampleDir)),
    .step (.env (.writeToDirectory (sampleStored 0xcd) sampleDir)),
    .step (.run 0 (.done 0)), .step (.run 1 (.done 0)), .step (.run 1 (.done 7)),
    .step (.run 0 (.done 5)), .step (.run 0 (.done 500)), .step (.run 0 (.done 0)),
    .step (.run 0 (.done 0)), .crash]

/-- The message that has been stored is read, a few bytes at a time, with the directory
spelled in another way. -/
def sampleFileRead : List FileEvent :=
  [.step (.env (.load (textBytes "/var/lib/mail/../lxmf/ab"))), .step (.run 0 (.done 0)),
    .step (.run 0 (.done 20)), .step (.run 0 (.done 500)), .step (.run 0 (.done 0))]

def sampleFileLog : List (Nat × FileResult) :=
  [(0, .saved (sampleHost.save (messagePath sampleDir [0xab])
      (marshalContainer (messageContainer (sampleStored 0xab))) true)),
    (0, .read (samplePlace 0xab) (marshalContainer (messageContainer (sampleStored 0xab))))]

theorem sample_file_run : ∃ c₁ c, run (fileStep sampleHost) (fileInit .empty) sampleFileCrash = some c₁ ∧
    run (fileStep sampleHost) c₁ sampleFileRead = some c ∧ c₁.threads = [] ∧ c₁.shared.log.length = 1 ∧
    c.shared.log = sampleFileLog := by
  have hfirst : (run (fileStep sampleHost) (fileInit .empty) sampleFileCrash).map
      (fun c => (c.threads.length, c.shared.log.length)) = some (0, 1) := by decide +kernel
  have hboth : (run (fileStep sampleHost) (fileInit .empty) (sampleFileCrash ++ sampleFileRead)).map
      (·.shared.log) = some sampleFileLog := by decide +kernel
  obtain ⟨c, hc, hlog⟩ := Option.map_eq_some_iff.mp hboth
  obtain ⟨c₁, hc₁, hrest⟩ := run_append.mp hc
  rw [hc₁, Option.map_some, Option.some.injEq, Prod.mk.injEq] at hfirst
  exact ⟨c₁, c, hc₁, hrest, List.eq_nil_of_length_eq_zero hfirst.1, hfirst.2, hlog⟩

/-! ## Saved files -/

/-- One of the calls is to save this. -/
def Asked (host : Host) (es : List FileEvent) (w : Save) : Prop :=
  ∃ call, .step (.env call) ∈ es ∧ call.save host = some w

/-- Nothing is saved that was not asked for. -/
structure SavesAsked (host : Host) (es : List FileEvent) (c : FileConf) : Prop where
  actions : Each (fun _ _ as => ∀ a ∈ as, ∀ w, a.save = some w → Asked host es w) c
  saved : ∀ {t w}, (t, .saved w) ∈ c.shared.log → Asked host es w

theorem SavesAsked.step {es : List FileEvent} {e : FileEvent} (h : SavesAsked host es c)
    (hinv : StoreInv start c) (he : e ∈ es) (hstep : fileStep host c e = some c') :
    SavesAsked host es c' := by
  cases e with
  | crash =>
    cases hstep
    exact ⟨fun _ _ hthread => by simp at hthread, h.saved⟩
  | step e =>
    cases Program.steps_of_step hstep with
    | @run t x a rest r hthread hact =>
      have hself : ∀ w, a.save = some w → Asked host es w := h.actions t _ hthread a List.mem_cons_self
      have hstep := fileAct_step hact (hinv.ready t _ hthread a List.mem_cons_self)
      refine ⟨Each.forall_run h.actions hthread (fun _ hb => hb) fun b hb w hw => ?_, fun hmem => ?_⟩
      · obtain hb | ⟨as, has, -⟩ := hb
        · exact hself w ((hstep.of_mem_push hb).2.save ▸ hw)
        · simp [hstep.spawn] at has
      · obtain ⟨new, hlog, hnew, -⟩ := hstep.log
        rw [hlog, List.mem_append] at hmem
        obtain hmem | hmem := hmem
        · exact h.saved hmem
        · have hrename : a = .rename _ := (hnew _ hmem).2
          exact hself _ (by rw [hrename]; rfl)
    | env henv =>
      obtain ⟨hshared, hspawn⟩ := FileCall.cases_env henv
      refine ⟨Each.forall_env h.actions (fun _ hb => hb) fun as has b hb w hw => ?_, hshared ▸ h.saved⟩
      obtain hnone | ⟨path, hload⟩ | ⟨w', hsave, hopen⟩ := hspawn
      · simp [hnone] at has
      · simp only [hload, List.mem_singleton] at has
        subst has
        cases List.mem_singleton.mp hb
        cases hw
      · simp only [hopen, List.mem_singleton] at has
        subst has
        cases List.mem_singleton.mp hb
        cases hw
        exact ⟨_, he, hsave⟩

theorem savesAsked_of_run {disk : Disk Place} {es : List FileEvent} (horderly : Orderly host (fileInit disk) es)
    (hrun : run (fileStep host) (fileInit disk) es = some c) : SavesAsked host es c := by
  have hinit : SavesAsked host es (fileInit disk) :=
    ⟨fun _ _ hthread => by simp [fileInit] at hthread, fun hmem => by simp [fileInit] at hmem⟩
  have hstep : ∀ {c e c'}, StoreInv disk.content c ∧ SavesAsked host es c → fileStep host c e = some c' →
      orderly host c e = true ∧ e ∈ es → StoreInv disk.content c' ∧ SavesAsked host es c' :=
    fun h hstep hgood => ⟨h.1.step hstep hgood.1, h.2.step h.1 hgood.2 hstep⟩
  exact (run_of_good hstep ⟨fileInit_inv disk, hinit⟩ (horderly.and (allSteps_mem _ es)) hrun).2

/-- At every moment, also after crashes and failed calls, there is under a name what was
there at the start or what the last call that saved this file was given. -/
theorem store_atomic {disk : Disk Place} {es : List FileEvent} {place : Place}
    (horderly : Orderly host (fileInit disk) es) (hrun : run (fileStep host) (fileInit disk) es = some c)
    (hplace : ¬IsTmp place) :
    c.shared.disk.content place = stored disk.content c.shared.log place ∧
      ∀ t w, (t, .saved w) ∈ c.shared.log → Asked host es w :=
  ⟨(storeInv_of_run horderly hrun).content hplace, fun _ _ hmem => (savesAsked_of_run horderly hrun).saved hmem⟩

theorem sample_store_atomic : ∃ c, run (fileStep sampleHost) (fileInit .empty) sampleFileCrash = some c ∧
    c.shared.disk.content (samplePlace 0xcd) = stored Disk.empty.content c.shared.log (samplePlace 0xcd) ∧
    ∀ t w, (t, .saved w) ∈ c.shared.log → Asked sampleHost sampleFileCrash w := by
  obtain ⟨c₁, -, hc₁, -⟩ := sample_file_run
  exact ⟨c₁, hc₁, store_atomic (by decide +kernel) hc₁ (not_isTmp_of_name (name_messagePath (by decide)))⟩

-- Calls for one file that overlap: the first one renames what the second has just emptied.
example :
    (run (fileStep sampleHost) (fileInit .empty)
      [.step (.env (.writeToDirectory (sampleStored 0xab) sampleDir)), .step (.run 0 (.done 0)),
        .step (.run 0 (.done 500)), .step (.run 0 (.done 0)),
        .step (.env (.writeToDirectory (sampleStored 0xab) sampleDir)), .step (.run 1 (.done 0)),
        .step (.run 0 (.done 0))]).map (·.shared.disk.content (samplePlace 0xab)) =
      some (some []) := by
  decide +kernel

/-! ## Reading -/

/-- The store held this at a moment after the results in `log₁` and before those after `log`. -/
def Seen (start : FileStore) (log₁ log : List (Nat × FileResult)) (place : Place) (data : Bytes) : Prop :=
  ∃ log', log₁ <+: log' ∧ log' <+: log ∧ stored start log' place = some data

theorem Seen.mono {log₁ log log' : List (Nat × FileResult)} {place : Place} {data : Bytes}
    (h : Seen start log₁ log place data) (hlog : log <+: log') : Seen start log₁ log' place data := by
  obtain ⟨log'', hfirst, hlast, hstored⟩ := h
  exact ⟨log'', hfirst, hlast.trans hlog, hstored⟩

/-- What thread `t` reads, and has read since the results in `log₁`, the store held since then. -/
structure ReadsSeen (start : FileStore) (log₁ : List (Nat × FileResult)) (t : Nat) (c : FileConf) : Prop where
  later : log₁ <+: c.shared.log
  opened : Each (fun s j as => j = t → ∀ a ∈ as, ∀ place file got, a = .readFile place file got →
    ¬IsTmp place → Seen start log₁ s.log place (s.disk.bytes file)) c
  returned : ∀ {place data}, (t, .read place data) ∈ c.shared.log.drop log₁.length → ¬IsTmp place →
    Seen start log₁ c.shared.log place data

theorem FileAct.Reads.settled {place : Place} {file : Nat} (h : a.Reads d place file) (ha : a.Ready d)
    (hplace : ¬IsTmp place) : Settled d file := by
  obtain ⟨got, rfl⟩ | ⟨rfl, hfile⟩ := h
  · exact (ha hplace).1
  · exact settled_of_names hplace hfile

theorem ReadsSeen.run {log₁ : List (Nat × FileResult)} {i : Nat} {rest : List FileAct}
    (h : ReadsSeen start log₁ t c) (hinv : StoreInv start c)
    (hthread : c.threads[i]? = some (a :: rest)) (hact : fileAct i x c.shared a = some r) :
    ReadsSeen start log₁ t ⟨r.shared, c.threads.set i (r.push ++ rest) ++ r.spawn⟩ := by
  have hready : ∀ b ∈ a :: rest, b.Ready c.shared.disk := hinv.ready i _ hthread
  have hstep := fileAct_step hact (hready a List.mem_cons_self)
  obtain ⟨new, hlog, hnew, -⟩ := hstep.log
  have hlater : c.shared.log <+: r.shared.log := ⟨new, hlog.symm⟩
  -- a file that was opened for reading stays as it is
  have hkept {j : Nat} {as : List FileAct} (has : c.threads[j]? = some as) (hj : j = t) :
      ∀ b ∈ as, ∀ place file got, b = .readFile place file got → ¬IsTmp place →
        Seen start log₁ r.shared.log place (r.shared.disk.bytes file) := by
    intro b hb place file got hread hplace
    have hb' : b.Ready c.shared.disk := hinv.ready j as has b hb
    rw [hread] at hb'
    rw [(hstep.confined.settled (hb' hplace).1).2]
    exact (h.opened j as has hj b hb place file got hread hplace).mono hlater
  refine ⟨h.later.trans hlater, ?_, fun {place data} hmem hplace => ?_⟩
  · intro j as has hj b hb place file got hread hplace
    by_cases hji : j = i
    · rw [hji, thread_self hthread, Option.some.injEq] at has
      rw [← has, List.mem_append] at hb
      obtain hb | hb := hb
      · have hreads := (hstep.of_mem_push hb).2.reads hread
        have hsettled := hreads.settled (hready a List.mem_cons_self) hplace
        rw [(hstep.confined.settled hsettled).2]
        refine Seen.mono ?_ hlater
        obtain ⟨got', rfl⟩ | ⟨-, hfile⟩ := hreads
        · exact h.opened i _ hthread (hji ▸ hj) _ List.mem_cons_self place file got' rfl hplace
        · exact ⟨c.shared.log, h.later, List.prefix_rfl,
            (hinv.content hplace).symm.trans (Disk.content_eq hfile)⟩
      · exact hkept hthread (hji ▸ hj) b (List.mem_cons_of_mem a hb) place file got hread hplace
    · rw [hstep.spawn, List.append_nil, List.getElem?_set_ne (Ne.symm hji)] at has
      exact hkept has hj b hb place file got hread hplace
  · rw [hlog, List.drop_append_of_le_length h.later.length_le, List.mem_append] at hmem
    obtain hmem | hmem := hmem
    · exact (h.returned hmem hplace).mono hlater
    · obtain ⟨hti, file, hread, hlength⟩ := hnew _ hmem
      have hti : t = i := hti
      subst hread
      have hgot := (hready _ List.mem_cons_self hplace).2
      rw [hgot.eq_of_length_le hlength]
      exact (h.opened i _ hthread hti.symm _ List.mem_cons_self place file data rfl hplace).mono hlater

theorem ReadsSeen.step {log₁ : List (Nat × FileResult)} {e : FileEvent} (h : ReadsSeen start log₁ t c)
    (hinv : StoreInv start c) (hstep : fileStep host c e = some c') : ReadsSeen start log₁ t c' := by
  cases e with
  | crash =>
    cases hstep
    exact ⟨h.later, fun _ _ hthread => by simp at hthread, h.returned⟩
  | step e =>
    cases Program.steps_of_step hstep with
    | run hthread hact => exact h.run hinv hthread hact
    | env henv =>
      obtain ⟨hshared, hspawn⟩ := FileCall.cases_env henv
      refine ⟨hshared ▸ h.later, Each.env h.opened (fun _ _ hb => hshared ▸ hb) ?_, hshared ▸ h.returned⟩
      intro as has j _ _ b hb place file got hread
      obtain hnone | ⟨place', hload⟩ | ⟨w, -, hopen⟩ := hspawn
      · simp [hnone] at has
      · simp only [hload, List.mem_singleton] at has
        subst has
        cases hread.symm.trans (List.mem_singleton.mp hb)
      · simp only [hopen, List.mem_singleton] at has
        subst has
        cases hread.symm.trans (List.mem_singleton.mp hb)

theorem readsSeen_of_run {log₁ : List (Nat × FileResult)} {es : List FileEvent} (hinv : StoreInv start c)
    (h : ReadsSeen start log₁ t c) (horderly : Orderly host c es) (hrun : run (fileStep host) c es = some c') :
    ReadsSeen start log₁ t c' := by
  have hstep : ∀ {c e c'}, StoreInv start c ∧ ReadsSeen start log₁ t c → fileStep host c e = some c' →
      orderly host c e = true → StoreInv start c' ∧ ReadsSeen start log₁ t c' :=
    fun h hstep hgood => ⟨h.1.step hstep hgood, h.2.step h.1 hstep⟩
  exact (run_of_good hstep ⟨hinv, h⟩ horderly hrun).2

/-- What a call reads is what the store held at a moment during the call. -/
theorem reads_see_store {disk : Disk Place} {es₁ es₂ : List FileEvent} {c₁ : FileConf} {place : Place} {data : Bytes}
    (horderly : Orderly host (fileInit disk) (es₁ ++ es₂))
    (hrun₁ : run (fileStep host) (fileInit disk) es₁ = some c₁) (hrun₂ : run (fileStep host) c₁ es₂ = some c)
    (hidle : ∀ as, c₁.threads[t]? = some as → ∀ place file got, .readFile place file got ∉ as)
    (hread : (t, .read place data) ∈ c.shared.log.drop c₁.shared.log.length) (hplace : ¬IsTmp place) :
    ∃ log, c₁.shared.log <+: log ∧ log <+: c.shared.log ∧ stored disk.content log place = some data := by
  obtain ⟨horderly₁, horderly₂⟩ := horderly.of_append hrun₁
  have hstart : ReadsSeen disk.content c₁.shared.log t c₁ := by
    refine ⟨List.prefix_rfl, ?_, fun hmem => by simp at hmem⟩
    rintro j as has rfl a ha place file got rfl
    exact absurd ha (hidle as has place file got)
  exact (readsSeen_of_run (storeInv_of_run horderly₁ hrun₁) hstart horderly₂ hrun₂).returned hread hplace

theorem sample_reads_see_store : ∃ c₁ c, run (fileStep sampleHost) (fileInit .empty) sampleFileCrash = some c₁ ∧
    run (fileStep sampleHost) c₁ sampleFileRead = some c ∧
    ∃ log, c₁.shared.log <+: log ∧ log <+: c.shared.log ∧
      stored Disk.empty.content log (samplePlace 0xab) =
        some (marshalContainer (messageContainer (sampleStored 0xab))) := by
  obtain ⟨c₁, c, hc₁, hc, hthreads, hlength, hlog⟩ := sample_file_run
  have hread : (0, .read (samplePlace 0xab)
      (marshalContainer (messageContainer (sampleStored 0xab)))) ∈
        c.shared.log.drop c₁.shared.log.length := by
    rw [hlog, hlength]
    exact List.mem_singleton_self _
  refine ⟨c₁, c, hc₁, hc, reads_see_store (by decide +kernel) hc₁ hc (fun as has => ?_) hread
    (not_isTmp_of_name (name_messagePath (by decide)))⟩
  simp [hthreads] at has

/-! ## Files of messages -/

/-- What the store holds for a file was there at the start, or was saved. -/
theorem stored_cases {log : List (Nat × FileResult)} {place : Place} {data : Bytes}
    (h : stored start log place = some data) :
    start place = some data ∨ ∃ t w, (t, .saved w) ∈ log ∧ w.place = place ∧ w.data = data := by
  induction log using List.reverseRecOn with
  | nil => exact .inl h
  | append_singleton log entry ih =>
    obtain ⟨t, res⟩ := entry
    have hold : stored start log place = some data →
        start place = some data ∨ ∃ t' w, (t', .saved w) ∈ log ++ [(t, res)] ∧ w.place = place ∧ w.data = data := by
      intro h
      obtain hstart | ⟨t', w, hmem, hw⟩ := ih h
      · exact .inl hstart
      · exact .inr ⟨t', w, List.mem_append_left _ hmem, hw⟩
    rw [stored_append] at h
    cases res with
    | saved w =>
      have h : Function.update (stored start log) w.place (some w.data) place = some data := h
      by_cases hw : place = w.place
      · rw [hw, Function.update_self, Option.some.injEq] at h
        exact .inr ⟨t, w, by simp, hw.symm, h⟩
      · rw [Function.update_of_ne hw] at h
        exact hold h
    | failed w err | read place' data' | notRead place' err => exact hold h

theorem unpackContainer_fst {Identity : Type} {cr : Crypto Identity} {o : Msgpack.MapOrder} {data : Bytes}
    {resolver : Option (Resolver Identity)} {k : Container} (h : unmarshalContainer data = .ok k) :
    (unpackContainer cr o data resolver).1 = k := by
  unfold unpackContainer
  rw [h]
  dsimp only
  split_ifs
  · rfl
  · split <;> rfl

/-- The configuration file that a call writes. -/
def FileCall.configPath : FileCall → Option Bytes
  | .saveConfig _ path | .writeDefaultConfigFile path => some path
  | .writeToDirectory _ _ | .load _ => none

/-- The file of a message is not read half written. What is read was there at the start, or
was packed for a message with the hash that the file is named by, and is the container of
that message. -/
theorem message_file_whole {Identity : Type} {disk : Disk Place} {es : List FileEvent}
    {place : Place} {hash data : Bytes} (horderly : Orderly host (fileInit disk) es)
    (hrun : run (fileStep host) (fileInit disk) es = some c)
    (hconfig : ∀ call path, .step (.env call) ∈ es → call.configPath = some path → host.place path ≠ place)
    (hname : place.name = encodeToString hash)
    (hread : (t, .read place data) ∈ c.shared.log) :
    disk.content place = some data ∨
    ∃ msg dir, .step (.env (.writeToDirectory msg dir)) ∈ es ∧ msg.hash = hash ∧
      host.place (messagePath dir hash) = place ∧ packContainer msg = .ok data ∧
      ∀ (cr : Crypto Identity) (o : Msgpack.MapOrder) (resolver : Option (Resolver Identity)),
        msg.packed.length < 2 ^ 32 → (unpackContainer cr o data resolver).1 = messageContainer msg := by
  have hinit : ReadsSeen disk.content [] t (fileInit disk) :=
    ⟨ List.nil_prefix, fun _ _ hthread => by simp [fileInit] at hthread, fun hmem => by simp [fileInit] at hmem⟩
  obtain ⟨log, -, hlog, hstored⟩ :=
    (readsSeen_of_run (fileInit_inv disk) hinit horderly hrun).returned hread (not_isTmp_of_name hname)
  obtain hstart | ⟨t', w, hmem, rfl, rfl⟩ := stored_cases hstored
  · exact .inl hstart
  · right
    have hasked := (savesAsked_of_run horderly hrun).saved (hlog.subset hmem)
    obtain ⟨call, hcall, hsave⟩ := hasked
    cases call with
    | writeToDirectory msg dir =>
      obtain ⟨hne, hpack, hplace⟩ := writeToDirectory_ok (Except.toOption_eq_some_iff.mp hsave)
      have heq : msg.hash = hash := by
        rw [hplace, name_messagePath hne] at hname
        exact encodeToString_inj hname
      refine ⟨msg, dir, hcall, heq, heq ▸ hplace.symm, hpack,
        fun cr o resolver hlength => unpackContainer_fst ?_⟩
      have hpacked : msg.packed ≠ [] := by
        intro hnil
        rw [packContainer, hnil] at hpack
        cases hpack
      rw [packContainer_ok hpacked] at hpack
      rw [← Except.ok.inj hpack]
      exact unmarshal_marshal (messageContainer_lengthsFit hlength)
    | saveConfig cfg path | writeDefaultConfigFile path =>
      cases hsave
      exact absurd rfl (hconfig _ path hcall rfl)
    | load path => cases hsave

theorem sample_message_file_whole :
    Disk.empty.content (samplePlace 0xab) =
      some (marshalContainer (messageContainer (sampleStored 0xab))) ∨
    ∃ msg dir, .step (.env (.writeToDirectory msg dir)) ∈ sampleFileCrash ++ sampleFileRead ∧
      msg.hash = [0xab] ∧ sampleHost.place (messagePath dir [0xab]) = samplePlace 0xab ∧
      packContainer msg = .ok (marshalContainer (messageContainer (sampleStored 0xab))) ∧
      ∀ (cr : Crypto Unit) (o : Msgpack.MapOrder) (resolver : Option (Resolver Unit)),
        msg.packed.length < 2 ^ 32 →
        (unpackContainer cr o (marshalContainer (messageContainer (sampleStored 0xab))) resolver).1 =
          messageContainer msg := by
  obtain ⟨c₁, c, hc₁, hc, -, -, hlog⟩ := sample_file_run
  have hread : (0, .read (samplePlace 0xab)
      (marshalContainer (messageContainer (sampleStored 0xab)))) ∈ c.shared.log := by
    rw [hlog]
    exact List.mem_cons_of_mem _ (List.mem_singleton_self _)
  refine message_file_whole (by decide +kernel) (run_append.mpr ⟨c₁, hc₁, hc⟩) ?_
    (name_messagePath (by decide)) hread
  intro call path hcall hpath
  simp only [sampleFileCrash, sampleFileRead, List.cons_append, List.nil_append, List.mem_cons,
    FileEvent.step.injEq, Event.env.injEq, List.not_mem_nil, reduceCtorEq, or_false, false_or] at hcall
  rcases hcall with rfl | rfl | rfl <;> cases hpath

end Lxmf
