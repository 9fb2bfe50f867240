import StraceXv6.Kernel.Fs.Directory
import StraceXv6.Kernel.Fs.Volume

namespace StraceXv6.Kernel

open List Data

def cname (name : List UInt8) : List UInt8 := (cstr name).take dirsiz

namespace Fs

variable {text : List UInt8}

theorem cstr_eq_cons (nonzero : text.headD 0 ≠ 0) : cstr text = text.headD 0 :: cstr text.tail := by
  cases text with
  | nil => exact absurd rfl nonzero
  | cons byte rest => exact takeWhile_cons_of_pos (decide_eq_true nonzero)

theorem cstr_eq_nil (zero : text.headD 0 = 0) : cstr text = [] := by
  cases text with
  | nil => rfl
  | cons byte rest =>
    obtain rfl : byte = 0 := zero
    rfl

theorem strncmp_eq_zero (p q : List UInt8) (n : Nat) :
    strncmp p q n = 0 ↔ (cstr p).take n = (cstr q).take n := by
  induction n generalizing p q with
  | zero => simp [strncmp]
  | succ n induction =>
    rw [strncmp]
    by_cases both : p.headD 0 ≠ 0 ∧ p.headD 0 = q.headD 0
    · obtain ⟨nonzero, same⟩ := both
      have nonzero' : q.headD 0 ≠ 0 := same ▸ nonzero
      have first : cstr p = _ := cstr_eq_cons nonzero
      have second : cstr q = _ := cstr_eq_cons nonzero'
      rw [if_pos ⟨nonzero, same⟩, induction, first, second, take_succ_cons,
        take_succ_cons, same]
      simp
    · rw [if_neg both]
      by_cases same : p.headD 0 = q.headD 0
      · have zero : p.headD 0 = 0 := by
          by_contra nonzero
          exact both ⟨nonzero, same⟩
        rw [cstr_eq_nil zero, cstr_eq_nil (same ▸ zero), same]
        simp
      · apply iff_of_false
        · intro difference
          apply same
          apply UInt8.toNat_inj.mp
          omega
        · intro equal
          apply same
          have heads := congrArg (fun text => text.headD 0) equal
          have head : ∀ text : List UInt8, ((cstr text).take (n + 1)).headD 0 = text.headD 0 := by
            intro text
            by_cases zero : text.headD 0 = 0
            · rw [cstr_eq_nil zero, zero]
              rfl
            · rw [cstr_eq_cons zero]
              rfl
          simpa only [head] using heads

theorem namecmp_eq_zero (s t : List UInt8) : namecmp s t = 0 ↔ cname s = cname t :=
  strncmp_eq_zero s t dirsiz

theorem length_strncpy (t : List UInt8) (n : Nat) : (strncpy t n).length = n := by
  induction n generalizing t with
  | zero => rfl
  | succ n induction =>
    rw [strncpy]
    split
    next => simp
    next => simp [induction]

theorem cstr_strncpy (t : List UInt8) (n : Nat) : cstr (strncpy t n) = (cstr t).take n := by
  induction n generalizing t with
  | zero => rfl
  | succ n induction =>
    rw [strncpy]
    split
    next zero =>
      rw [cstr_eq_nil zero, take_nil]
      exact cstr_replicate_nul (n + 1)
    next nonzero =>
      rw [cstr_eq_cons nonzero, cstr_eq_cons (by exact nonzero), take_succ_cons]
      exact congrArg _ (induction t.tail)

@[simp] theorem cname_strncpy (t : List UInt8) : cname (strncpy t dirsiz) = cname t := by
  rw [cname, cstr_strncpy, take_take, Nat.min_self, cname]

namespace Dirent

variable {de : Dirent}

theorem load_store (length : de.name.length = dirsiz) : load de.store = de := by
  obtain ⟨inum, name⟩ := de
  have number : UInt16.ofNat ((UInt8.ofNat inum.toNat).toNat +
      2 ^ 8 * (UInt8.ofNat (inum.toNat / 2 ^ 8)).toNat) = inum := by
    have bound := inum.toNat_lt
    apply UInt16.toNat_inj.mp
    rw [UInt16.toNat_ofNat', UInt8.toNat_ofNat', UInt8.toNat_ofNat']
    omega
  have text : name.take dirsiz = name := take_of_length_le length.le
  simp only [load, store, getD_cons_zero, getD_cons_succ, number, drop_succ_cons,
    drop_zero, text]

theorem length_store (length : de.name.length = dirsiz) : de.store.length = bytes := by
  rw [store, length_cons, length_cons, length]

end Dirent

end Fs

namespace Node

open Fs (Dirent)

def dirent (n : Node) (k : Nat) : Dirent :=
  Dirent.load (n.read (Dirent.bytes * k) Dirent.bytes)

def dirents (n : Node) : List Dirent := (List.range (n.size / Dirent.bytes)).map n.dirent

def find (n : Node) (name : List UInt8) : Option Nat :=
  n.dirents.findIdx? fun de => de.inum ≠ 0 ∧ cname name = cname de.name

def put (n : Node) (k : Nat) (de : Dirent) : Node :=
  n.write (Dirent.bytes * k) Dirent.bytes fun offset => de.store.getD offset 0

section

variable {n : Node} {k : Nat}

@[simp] theorem length_dirents (n : Node) : n.dirents.length = n.size / Dirent.bytes := by
  rw [dirents, length_map, length_range]

@[simp] theorem getElem_dirents (inside : k < n.dirents.length) :
    n.dirents[k] = n.dirent k := by
  simp only [dirents, getElem_map, getElem_range]

theorem dirent_mem (inside : k < n.dirents.length) : n.dirent k ∈ n.dirents := by
  rw [← getElem_dirents inside]
  exact getElem_mem inside

theorem mul_lt_size (inside : k < n.dirents.length) :
    Dirent.bytes * k + Dirent.bytes ≤ n.size := by
  rw [length_dirents] at inside
  change k < n.size / 16 at inside
  change 16 * k + 16 ≤ n.size
  omega

theorem lt_length_dirents (below : Dirent.bytes * k + Dirent.bytes ≤ n.size) :
    k < n.dirents.length := by
  rw [length_dirents]
  change 16 * k + 16 ≤ n.size at below
  change k < n.size / 16
  omega

theorem read_dirent (below : Dirent.bytes * k + Dirent.bytes ≤ n.size) :
    n.read (Dirent.bytes * k) Dirent.bytes =
      (List.range Dirent.bytes).map fun offset => n.byte (Dirent.bytes * k + offset) := by
  rw [read, Nat.min_eq_left (by omega)]

@[simp] theorem type_put (n : Node) (k : Nat) (de : Dirent) : (n.put k de).type = n.type := rfl

theorem size_put (n : Node) (k : Nat) (de : Dirent) :
    (n.put k de).size = max n.size (Dirent.bytes * k + Dirent.bytes) := rfl

variable {de : Dirent} {name : List UInt8}

theorem dirent_put_self (length : de.name.length = dirsiz) : (n.put k de).dirent k = de := by
  have bytes : (List.range Dirent.bytes).map
      (fun offset => (n.put k de).byte (Dirent.bytes * k + offset)) = de.store := by
    apply ext_getElem
    · rw [length_map, length_range, Dirent.length_store length]
    · intro offset inside inside'
      rw [length_map, length_range] at inside
      rw [getElem_map, getElem_range]
      change (if Dirent.bytes * k ≤ Dirent.bytes * k + offset ∧
        Dirent.bytes * k + offset < Dirent.bytes * k + Dirent.bytes then
          de.store.getD (Dirent.bytes * k + offset - Dirent.bytes * k) 0 else _) = _
      rw [if_pos (by omega), Nat.add_sub_cancel_left, getD_eq_getElem _ _ inside']
  rw [dirent, read_dirent (by rw [size_put]; exact Nat.le_max_right _ _), bytes,
    Dirent.load_store length]

theorem dirent_put_of_ne {j : Nat} (below : Dirent.bytes * j + Dirent.bytes ≤ n.size)
    (distinct : j ≠ k) : (n.put k de).dirent j = n.dirent j := by
  rw [dirent, dirent, read_dirent below,
    read_dirent (by rw [size_put]; exact below.trans (Nat.le_max_left _ _))]
  congr 1
  apply map_congr_left
  intro offset member
  have inside : offset < 16 := mem_range.mp member
  apply if_neg
  change ¬(16 * k ≤ 16 * j + offset ∧ 16 * j + offset < 16 * k + 16)
  omega

theorem dirents_put (length : de.name.length = dirsiz) (inside : k < n.dirents.length) :
    (n.put k de).dirents = n.dirents.set k de := by
  have size : (n.put k de).size = n.size := by
    rw [size_put]
    exact Nat.max_eq_left (mul_lt_size inside)
  apply ext_getElem
  · rw [length_set, length_dirents, length_dirents, size]
  · intro j below below'
    rw [length_set] at below'
    rw [getElem_dirents, getElem_set]
    split
    next same =>
      subst same
      exact dirent_put_self length
    next distinct =>
      rw [getElem_dirents, dirent_put_of_ne (mul_lt_size below') (Ne.symm distinct)]

theorem dirents_put_size (length : de.name.length = dirsiz) (last : Dirent.bytes * k = n.size) :
    (n.put k de).dirents = n.dirents ++ [de] := by
  have slots : n.size / Dirent.bytes = k := by
    change 16 * k = n.size at last
    change n.size / 16 = k
    omega
  have slots' : (n.put k de).size / Dirent.bytes = k + 1 := by
    rw [size_put, ← last]
    change max (16 * k) (16 * k + 16) / 16 = k + 1
    omega
  rw [dirents, dirents, slots, slots', range_succ, map_append, map_singleton,
    dirent_put_self length]
  congr 1
  apply map_congr_left
  intro j member
  have below : j < k := mem_range.mp member
  apply dirent_put_of_ne _ below.ne
  rw [← last]
  change 16 * j + 16 ≤ 16 * k
  omega

theorem find_eq_some : n.find name = some k ↔
    k < n.dirents.length ∧ (n.dirent k).inum ≠ 0 ∧ cname name = cname (n.dirent k).name ∧
      ∀ j < k, ¬((n.dirent j).inum ≠ 0 ∧ cname name = cname (n.dirent j).name) := by
  rw [find, List.findIdx?_eq_some_iff_getElem]
  simp only [getElem_dirents, decide_eq_true_eq]
  constructor
  · rintro ⟨inside, ⟨used, same⟩, first⟩
    exact ⟨inside, used, same, fun j below => first j below⟩
  · rintro ⟨inside, used, same, first⟩
    exact ⟨inside, ⟨used, same⟩, fun j below => first j below⟩

theorem find_eq_none : n.find name = none ↔
    ∀ j < n.dirents.length, ¬((n.dirent j).inum ≠ 0 ∧ cname name = cname (n.dirent j).name) := by
  rw [find, List.findIdx?_eq_none_iff]
  simp only [decide_eq_false_iff_not]
  constructor
  · intro none j inside
    rw [← getElem_dirents inside]
    exact none _ (getElem_mem inside)
  · intro none de member
    obtain ⟨j, inside, rfl⟩ := getElem_of_mem member
    rw [getElem_dirents]
    exact none j inside

end

end Node

end StraceXv6.Kernel
