import StraceXv6.Kernel.Fs.FileWrite

namespace StraceXv6.Kernel.Fs

open List Data Data.Command

/-! What a path names: the successive lookups of its components. -/

def pieces (path : List UInt8) : List (List UInt8) :=
  (path.splitOnP (· = (47 : UInt8))).filter (· ≠ [])

def components (path : List UInt8) : List (List UInt8) := (pieces path).map (·.take dirsiz)

def lookup (nodes : Nat → Node) (i : Nat) (name : List UInt8) : Option Nat :=
  if (nodes i).type = tDir then
    ((nodes i).find name).map fun k => ((nodes i).dirent k).inum.toNat
  else none

def reach (nodes : Nat → Node) (i : Nat) (names : List (List UInt8)) : Option Nat :=
  names.foldlM (lookup nodes) i

/-- The directory reached by all names but the last one, which is left over. -/
def reachParent (nodes : Nat → Node) (i : Nat) (names : List (List UInt8)) :
    Option (Nat × List UInt8) :=
  match names.getLast? with
  | none => none
  | some name => (reach nodes i names.dropLast).bind fun d =>
    if (nodes d).type = tDir then some (d, name) else none

def origin (cwd : Nat) (path : List UInt8) : Nat := if path.head? = some 47 then rootino else cwd

theorem pieces_slash (path : List UInt8) : pieces (47 :: path) = pieces path := by
  rw [pieces, pieces, splitOnP_cons_eq_if_modifyHead, if_pos (by decide)]
  rfl

theorem pieces_dropWhile (path : List UInt8) :
    pieces (path.dropWhile (· = (47 : UInt8))) = pieces path := by
  induction path with
  | nil => rfl
  | cons c path induction =>
    rw [dropWhile_cons]
    split
    next slash => rw [induction, of_decide_eq_true slash, pieces_slash]
    next => rfl

theorem pieces_cons {c : UInt8} (plain : c ≠ 47) (path : List UInt8) :
    pieces (c :: path) = (c :: path).takeWhile (· ≠ (47 : UInt8)) ::
      pieces ((c :: path).dropWhile (· ≠ (47 : UInt8))) := by
  have starts : (c :: path).takeWhile (· ≠ (47 : UInt8)) ≠ [] := by
    rw [takeWhile_cons_of_pos (by simpa using plain)]
    exact cons_ne_nil _ _
  generalize c :: path = path at starts
  have clear : ∀ c ∈ path.takeWhile (· ≠ (47 : UInt8)), decide (c = 47) = false := by
    intro c member
    simpa using mem_takeWhile_imp member
  have whole := @List.takeWhile_append_dropWhile _ (· ≠ (47 : UInt8)) path
  have stops := List.head?_dropWhile_not (· ≠ (47 : UInt8)) path
  generalize path.takeWhile (· ≠ (47 : UInt8)) = front at *
  generalize path.dropWhile (· ≠ (47 : UInt8)) = back at *
  subst whole
  cases back with
  | nil =>
    rw [append_nil, pieces, splitOnP_eq_singleton clear]
    simp [pieces, starts]
  | cons c tail =>
    obtain rfl : c = 47 := by simpa using stops
    rw [pieces_slash, pieces, splitOnP_append_cons_of_forall_mem clear _ rfl,
      filter_cons_of_pos (by simpa using starts)]
    rfl

theorem components_of_skipelem (path : List UInt8) :
    match skipelem path with
    | none => components path = []
    | some (name, rest) => components path = name :: components rest ∧
        (rest = [] ↔ components rest = []) := by
  have first := List.head?_dropWhile_not (· = (47 : UInt8)) path
  rw [components, ← pieces_dropWhile, skipelem]
  generalize path.dropWhile (· = (47 : UInt8)) = path at *
  cases path with
  | nil => rfl
  | cons c path =>
    have plain : c ≠ 47 := by simpa using first
    rw [if_neg (cons_ne_nil c path), pieces_cons plain]
    dsimp only
    generalize (c :: path).dropWhile (· ≠ (47 : UInt8)) = back
    refine ⟨?_, ?_⟩
    · rw [map_cons, components, pieces_dropWhile]
    · have next := List.head?_dropWhile_not (· = (47 : UInt8)) back
      cases rest : back.dropWhile (· = (47 : UInt8)) with
      | nil => exact iff_of_true rfl rfl
      | cons c' tail =>
        rw [rest] at next
        rw [components, pieces_cons (by simpa using next)]
        exact iff_of_false (cons_ne_nil _ _) (cons_ne_nil _ _)

variable {i turns : Nat} {path : List UInt8}

theorem walk_eq_reach (nodes : Nat → Node) (enough : path.length < turns) :
    (walk nodes false turns i path).map Prod.fst = reach nodes i (components path) := by
  induction turns generalizing i path with
  | zero => omega
  | succ turns induction =>
    have split := components_of_skipelem path
    rw [walk]
    cases elements : skipelem path with
    | none =>
      rw [elements] at split
      rw [split]
      rfl
    | some element =>
      obtain ⟨name, rest⟩ := element
      have shorter := length_skipelem elements
      rw [elements] at split
      rw [split.1, reach, foldlM_cons, lookup]
      simp only [Bool.false_eq_true, false_and, if_false]
      by_cases directory : (nodes i).type = tDir
      · rw [if_neg (not_not.mpr directory), if_pos directory]
        cases (nodes i).find name with
        | none => rfl
        | some k => exact induction (by omega)
      · rw [if_pos directory, if_neg directory]
        rfl

theorem reachParent_cons (nodes : Nat → Node) (i : Nat) (name next : List UInt8)
    (others : List (List UInt8)) : reachParent nodes i (name :: next :: others) =
      (lookup nodes i name).bind fun j => reachParent nodes j (next :: others) := by
  rw [reachParent, List.getLast?_cons_cons, dropLast_cons_cons, reach, foldlM_cons]
  cases lookup nodes i name with
  | none => cases (next :: others).getLast? <;> rfl
  | some j => rfl

theorem walk_eq_reachParent (nodes : Nat → Node) (enough : path.length < turns) :
    walk nodes true turns i path = reachParent nodes i (components path) := by
  induction turns generalizing i path with
  | zero => omega
  | succ turns induction =>
    have split := components_of_skipelem path
    rw [walk]
    cases elements : skipelem path with
    | none =>
      rw [elements] at split
      rw [split]
      rfl
    | some element =>
      obtain ⟨name, rest⟩ := element
      have shorter := length_skipelem elements
      rw [elements] at split
      obtain ⟨split, ends⟩ := split
      rw [split]
      by_cases last : rest = []
      · rw [ends.mp last]
        simp [last, reachParent, reach]
      · obtain ⟨next, others, more⟩ := exists_cons_of_ne_nil (mt ends.mpr last)
        have later : ∀ j, walk nodes true turns j rest = reachParent nodes j (next :: others) :=
          fun j => more ▸ induction (by omega)
        simp only [last, and_false, if_false, later, more]
        rw [reachParent_cons, lookup]
        by_cases directory : (nodes i).type = tDir
        · rw [if_neg (not_not.mpr directory), if_pos directory]
          cases (nodes i).find name <;> rfl
        · rw [if_pos directory, if_neg directory]
          rfl

section

variable {sb : Superblock} {fs fs' : Fs} {cwd : Fin ninode} {held : Multiset (Fin ninode)}
  {path : List UInt8} (rooted : rootino < sb.ninodes) (settled : Settled sb fs held ∅)
  (member : cwd ∈ held) (ranged : sb.Ranged (sb.node fs.disk))

include rooted settled member ranged

end

example : components (lit "//usr/./averylongfilename/") =
    [lit "usr", lit ".", lit "averylongfilen"] := by decide

end StraceXv6.Kernel.Fs
