-- SUMMARY: Cleaning and joining paths, as Go's `path/filepath` does on Unix.
import Mathlib.Data.List.DropRight
import ReticulumMf.Lib.BigEndian

/-!
# Paths

`clean` drops empty and `.` elements and lets `..` cancel the element before it. A path is
joined from a directory and a name by cleaning the two with a slash between them. If the
name is one plain element, the result is that name after something which the directory
alone determines (`exists_join`). A path splits after its last slash into a directory and
a name; what is appended to the path is appended to the name.
-/

namespace Paths

def slash : UInt8 := 0x2f
def dot : Bytes := [0x2e]
def dotDot : Bytes := [0x2e, 0x2e]

/-- One more element of a path. The elements so far are listed from the last to the first. -/
def push (rooted : Bool) (stack : List Bytes) (elem : Bytes) : List Bytes :=
  if elem = [] ∨ elem = dot then stack
  else if elem = dotDot then
    match stack with
    | [] => if rooted then [] else [dotDot]
    | top :: rest => if top = dotDot then dotDot :: top :: rest else rest
  else elem :: stack

/-- `filepath.Clean`. -/
def clean (path : Bytes) : Bytes :=
  let rooted := path.head? = some slash
  let body := [slash].intercalate ((path.splitOn slash).foldl (push rooted) []).reverse
  if rooted then slash :: body else if body = [] then dot else body

/-- `filepath.Join` of a directory and a name. -/
def join (dir name : Bytes) : Bytes :=
  if dir = [] then if name = [] then [] else clean name else clean (dir ++ slash :: name)

/-- A name of one element that cleaning keeps. -/
structure Plain (name : Bytes) : Prop where
  ne_nil : name ≠ []
  ne_dot : name ≠ dot
  ne_dotDot : name ≠ dotDot
  slash_notMem : slash ∉ name

theorem Plain.push {name : Bytes} (h : Plain name) (rooted : Bool) (stack : List Bytes) :
    push rooted stack name = name :: stack := by
  simp [Paths.push, h.ne_nil, h.ne_dot, h.ne_dotDot]

theorem splitOn_of_notMem {name : Bytes} (h : slash ∉ name) : name.splitOn slash = [name] := by
  have hsplit : ([slash].intercalate [name]).splitOn slash = [name] :=
    List.splitOn_intercalate slash (by simpa using h) (by simp)
  rwa [List.intercalate_singleton] at hsplit

theorem splitOn_append_slash {dir name : Bytes} (h : slash ∉ name) :
    (dir ++ slash :: name).splitOn slash = dir.splitOn slash ++ [name] := by
  rw [← splitOn_of_notMem h]
  exact List.splitOnP_append_cons dir name (by simp)

/-- What may stand before the last element of a path. -/
def IsDir (pre : Bytes) : Prop := pre = [] ∨ ∃ dir, pre = dir ++ [slash]

theorem IsDir.append {pre : Bytes} (h : IsDir pre) (dir : Bytes) : IsDir (dir ++ [slash] ++ pre) := by
  obtain rfl | ⟨dir', rfl⟩ := h
  · exact .inr ⟨dir, List.append_nil _⟩
  · exact .inr ⟨dir ++ [slash] ++ dir', (List.append_assoc ..).symm⟩

theorem exists_intercalate (elems : List Bytes) :
    ∃ pre, IsDir pre ∧ ∀ name, [slash].intercalate (elems ++ [name]) = pre ++ name := by
  induction elems with
  | nil => exact ⟨[], .inl rfl, fun name => by simp⟩
  | cons elem elems ih =>
    obtain ⟨pre, hdir, hpre⟩ := ih
    refine ⟨elem ++ [slash] ++ pre, hdir.append elem, fun name => ?_⟩
    have hcons : ∃ elem' elems', elems ++ [name] = elem' :: elems' := by
      cases elems with
      | nil => exact ⟨name, [], rfl⟩
      | cons elem' elems' => exact ⟨elem', elems' ++ [name], rfl⟩
    obtain ⟨elem', elems', heq⟩ := hcons
    rw [List.cons_append, List.append_assoc, ← hpre name, heq, List.intercalate_cons_cons]

theorem clean_eq_of_plain {name : Bytes} (h : Plain name) : clean name = name := by
  have hrooted : name.head? ≠ some slash := fun hhead => h.slash_notMem (List.mem_of_head? hhead)
  simp [clean, hrooted, splitOn_of_notMem h.slash_notMem, h.push, h.ne_nil]

/-- What the directory puts before a plain name. -/
theorem exists_join (dir : Bytes) :
    ∃ pre, IsDir pre ∧ ∀ name, Plain name → join dir name = pre ++ name := by
  cases dir with
  | nil => exact ⟨[], .inl rfl, fun name h => by simp [join, h.ne_nil, clean_eq_of_plain h]⟩
  | cons b dir =>
    let rooted := decide ((b :: dir).head? = some slash)
    obtain ⟨pre, hdir, hpre⟩ :=
      exists_intercalate (((b :: dir).splitOn slash).foldl (push rooted) []).reverse
    refine ⟨if rooted then slash :: pre else pre, ?_, fun name h => ?_⟩
    · split
      · exact hdir.append []
      · exact hdir
    · have hhead : ((b :: dir) ++ slash :: name).head? = (b :: dir).head? := rfl
      have hstack : (((b :: dir) ++ slash :: name).splitOn slash).foldl (push rooted) [] =
          name :: ((b :: dir).splitOn slash).foldl (push rooted) [] := by
        rw [splitOn_append_slash h.slash_notMem, List.foldl_append]
        exact h.push rooted _
      have hne : pre ++ name ≠ [] := fun hnil => h.ne_nil (List.append_eq_nil_iff.mp hnil).2
      simp only [join, List.cons_ne_nil, if_false, clean, hhead]
      rw [hstack, List.reverse_cons, hpre, if_neg hne]
      split <;> simp_all [rooted]

/-! ## Directory and name -/

/-- What stands before the name, with the last slash. -/
def dirPart (path : Bytes) : Bytes := path.rdropWhile (· ≠ slash)

/-- What follows the last slash. -/
def base (path : Bytes) : Bytes := path.rtakeWhile (· ≠ slash)

section Append

variable {path more : Bytes} (h : slash ∉ more)

include h

theorem ne_slash_of_mem_reverse : ∀ b ∈ more.reverse, decide (b ≠ slash) = true := by
  intro b hb
  refine decide_eq_true fun heq => h ?_
  exact heq ▸ List.mem_reverse.mp hb

theorem dirPart_append : dirPart (path ++ more) = dirPart path := by
  rw [dirPart, List.rdropWhile, List.reverse_append,
    List.dropWhile_append_of_pos (ne_slash_of_mem_reverse h)]
  rfl

theorem base_append : base (path ++ more) = base path ++ more := by
  rw [base, List.rtakeWhile, List.reverse_append,
    List.takeWhile_append_of_pos (ne_slash_of_mem_reverse h), List.reverse_append, List.reverse_reverse]
  rfl

end Append

theorem IsDir.base {pre : Bytes} (h : IsDir pre) : base pre = [] := by
  obtain rfl | ⟨dir, rfl⟩ := h
  · rfl
  · exact List.rtakeWhile_concat_neg _ _ _ (by simp)

/-- The name of a joined path. -/
theorem base_join {dir name : Bytes} (h : Plain name) : base (join dir name) = name := by
  obtain ⟨pre, hdir, hpre⟩ := exists_join dir
  rw [hpre name h, base_append h.slash_notMem, hdir.base, List.nil_append]

end Paths
