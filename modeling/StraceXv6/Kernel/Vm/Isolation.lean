import StraceXv6.Kernel.Vm.Growth

namespace StraceXv6.Kernel.Vm

open Data

/-! Reads and writes of user code through a page directory. -/

def Accessible (pte : UInt32) : Prop := present pte ∧ pte &&& pteU ≠ 0

instance : DecidablePred Accessible := fun _ => inferInstanceAs (Decidable (_ ∧ _))

def pageOffset (va : UInt32) : Fin pgsize := ⟨va.toNat % pgsize, Nat.mod_lt _ (by decide)⟩

namespace Memory

def byte (m : Memory) (d : Nat) (va : UInt32) : UInt8 :=
  m.page (frame (m.entry d (vpn va))) (pageOffset va)

/-- What user code reads; `none` is a page fault. -/
def load (m : Memory) (d : Nat) (va : UInt32) : Option UInt8 :=
  if Accessible (m.entry d (vpn va)) then some (m.byte d va) else none

/-- A write of user code; where it faults, nothing is written. -/
def store (m : Memory) (d : Nat) (va : UInt32) (value : UInt8) : Memory :=
  if Accessible (m.entry d (vpn va)) ∧ m.entry d (vpn va) &&& pteW ≠ 0 then
    m.setPage (frame (m.entry d (vpn va)))
      (Function.update (m.page (frame (m.entry d (vpn va)))) (pageOffset va) value)
  else m

def Reaches (m : Memory) (d f : Nat) : Prop :=
  ∃ v, Accessible (m.entry d v) ∧ frame (m.entry d v) = f

variable {m m' : Memory} {d f : Nat}

theorem page_store_of_not_reaches (unreached : ¬m.Reaches d f) (va : UInt32) (value : UInt8) :
    (m.store d va value).page f = m.page f := by
  rw [store]
  split
  next both =>
    apply page_setPage_of_ne
    rintro rfl
    exact unreached ⟨vpn va, both.1, rfl⟩
  next => rfl

theorem entries_store {p : Nat}
    (apart : ∀ {f}, m.Reaches p f → f ≠ d ∧ ∀ i, m.table d i ≠ some f) (va : UInt32)
    (value : UInt8) :
    (m.store p va value).table d = m.table d ∧ (m.store p va value).entry d = m.entry d := by
  rw [store]
  split
  next both =>
    obtain ⟨notDirectory, notTable⟩ := apart ⟨_, both.1, rfl⟩
    exact entries_setPage notDirectory notTable _
  next => exact ⟨rfl, rfl⟩

theorem page_store_congr (entries : m'.entry d = m.entry d)
    (same : ∀ {g}, m.Reaches d g → m'.page g = m.page g) (reached : m.Reaches d f) (va : UInt32)
    (value : UInt8) : (m'.store d va value).page f = (m.store d va value).page f := by
  rw [store, store, entries]
  split
  next both =>
    rw [same ⟨_, both.1, rfl⟩]
    by_cases here : f = frame (m.entry d (vpn va))
    · rw [here, page_setPage_self, page_setPage_self]
    · rw [page_setPage_of_ne here, page_setPage_of_ne here, same reached]
  next => exact same reached

theorem reaches_congr (entries : m'.entry d = m.entry d) (f : Nat) :
    m'.Reaches d f ↔ m.Reaches d f := by
  simp only [Reaches, entries]

end Memory

structure Write where
  pgdir : Nat
  va : UInt32
  value : UInt8

namespace Memory

def perform (m : Memory) (writes : List Write) : Memory :=
  writes.foldl (fun m write => m.store write.pgdir write.va write.value) m

end Memory

/-- Through neither directory can user code reach the tables of one, nor the pages that
it reaches through the other. -/
structure Isolated (m : Memory) (d e : Nat) : Prop where
  directories : ∀ {f}, m.Reaches d f ∨ m.Reaches e f → f ≠ d ∧ f ≠ e
  tables : ∀ {f i}, m.Reaches d f ∨ m.Reaches e f →
    m.table d i ≠ some f ∧ m.table e i ≠ some f
  pages : ∀ {f}, m.Reaches d f → ¬m.Reaches e f

namespace Isolated

variable {m m' : Memory} {d e : Nat}

theorem symm (isolated : Isolated m d e) : Isolated m e d where
  directories := fun reached => (isolated.directories reached.symm).symm
  tables := fun reached => (isolated.tables reached.symm).symm
  pages := fun there here => isolated.pages here there

theorem congr (isolated : Isolated m d e) (tables : m'.table d = m.table d)
    (tables' : m'.table e = m.table e) (entries : m'.entry d = m.entry d)
    (entries' : m'.entry e = m.entry e) : Isolated m' d e where
  directories := by
    intro f
    rw [Memory.reaches_congr entries, Memory.reaches_congr entries']
    exact isolated.directories
  tables := by
    intro f i
    rw [Memory.reaches_congr entries, Memory.reaches_congr entries', tables, tables']
    exact isolated.tables
  pages := by
    intro f
    rw [Memory.reaches_congr entries, Memory.reaches_congr entries']
    exact isolated.pages

theorem store (isolated : Isolated m d e) {p : Nat} (either : p = d ∨ p = e) (va : UInt32)
    (value : UInt8) :
    (m.store p va value).table d = m.table d ∧ (m.store p va value).entry d = m.entry d := by
  refine Memory.entries_store (fun {f} reached => ?_) va value
  have reached' : m.Reaches d f ∨ m.Reaches e f := by
    rcases either with rfl | rfl
    · exact .inl reached
    · exact .inr reached
  exact ⟨(isolated.directories reached').1, fun i => (isolated.tables reached').1⟩

/-- The writes through `e` change nothing that is reached through `d`. -/
theorem perform_filter {writes : List Write}
    (either : ∀ write ∈ writes, write.pgdir = d ∨ write.pgdir = e) :
    ∀ {m m' : Memory}, Isolated m d e → m'.table d = m.table d → m'.entry d = m.entry d →
      (∀ {f}, m.Reaches d f → m'.page f = m.page f) →
      (∀ va, (m'.perform (writes.filter fun write => write.pgdir = d)).load d va =
        (m.perform writes).load d va) := by
  induction writes with
  | nil =>
    intro m m' _ _ entries pages va
    change m'.load d va = m.load d va
    rw [Memory.load, Memory.load, entries]
    split
    next accessible =>
      rw [Memory.byte, Memory.byte, entries, pages ⟨_, accessible, rfl⟩]
    next => rfl
  | cons write rest induction =>
    intro m m' isolated tables entries pages va
    have here := either write List.mem_cons_self
    have others := fun other member => either other (List.mem_cons_of_mem write member)
    obtain ⟨sameTables, sameEntries⟩ := isolated.store here write.va write.value
    obtain ⟨sameTables', sameEntries'⟩ := isolated.symm.store here.symm write.va write.value
    have isolated' := isolated.congr sameTables sameTables' sameEntries sameEntries'
    change _ = ((m.store write.pgdir write.va write.value).perform rest).load d va
    by_cases own : write.pgdir = d
    · rw [List.filter_cons_of_pos (by simpa using own)]
      change ((m'.store write.pgdir write.va write.value).perform _).load d va = _
      rw [own] at sameTables sameEntries isolated' ⊢
      obtain ⟨keptTables, keptEntries⟩ := Memory.entries_store (m := m') (p := d) (d := d)
        (fun {f} reached => by
          rw [Memory.reaches_congr entries] at reached
          rw [tables]
          exact ⟨(isolated.directories (.inl reached)).1,
            fun i => (isolated.tables (.inl reached)).1⟩) write.va write.value
      refine induction others isolated' (by rw [keptTables, tables, sameTables])
        (by rw [keptEntries, entries, sameEntries]) ?_ va
      intro f reached
      rw [Memory.reaches_congr sameEntries] at reached
      exact Memory.page_store_congr entries pages reached write.va write.value
    · rw [List.filter_cons_of_neg (by simpa using own)]
      refine induction others isolated' (tables.trans sameTables.symm)
        (entries.trans sameEntries.symm) ?_ va
      intro f reached
      rw [Memory.reaches_congr sameEntries] at reached
      rw [pages reached, Memory.page_store_of_not_reaches]
      rw [here.resolve_left own]
      exact isolated.pages reached

end Isolated

end StraceXv6.Kernel.Vm
