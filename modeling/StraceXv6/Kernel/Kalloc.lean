import StraceXv6.Data.Run
import StraceXv6.Kernel.Vm.Memory

namespace StraceXv6.Kernel.Kalloc

open Function List Data Data.Command
open Vm (Page pgroundup)

/-! The allocator of physical pages.  Its free list is threaded through the free pages. -/

/-- The pages by their virtual addresses, and `kmem`; `lock` tells whether the lock is held. -/
structure Kmem where
  page : UInt32 → Page
  lock : Bool
  useLock : Bool
  freelist : UInt32

inductive Panic
  | acquire
  | release
  | kfree
  | diverges
  deriving DecidableEq

abbrev KallocM : Type → Type := Command Kmem Panic

/-- The first word of a free page is its `next`. -/
def next (page : UInt32 → Page) (r : UInt32) : UInt32 := getWord (page r) 0

def acquire : KallocM Unit := do
  if (← get).useLock then
    if (← get).lock then throw .acquire
    else modify fun s => { s with lock := true }

def release : KallocM Unit := do
  if (← get).useLock then
    if (← get).lock then modify fun s => { s with lock := false }
    else throw .release

/-- `r->next = kmem.freelist`, in the page filled with junk. -/
def Kmem.push (s : Kmem) (v : UInt32) : Kmem :=
  { s with
    page := Function.update s.page v (setWord (fun _ => 1) 0 s.freelist)
    freelist := v }

/-- The test of the loop of `freerange`. -/
@[irreducible] def inRange (p vend : UInt32) : Bool := p + 4096 ≤ vend

section

-- the address of `end`
variable (finish : UInt32)

def kfree (v : UInt32) : KallocM Unit := do
  if v.toNat % pgsize ≠ 0 ∨ v < finish ∨ v - kernbase ≥ phystop then throw .kfree
  else do
    modify fun s => { s with page := Function.update s.page v fun _ => 1 }
    acquire
    modify fun s => { s with
      page := Function.update s.page v (setWord (s.page v) 0 s.freelist)
      freelist := v }
    release

def freerangeLoop (vend : UInt32) : Nat → UInt32 → KallocM Unit
  | 0, _ => throw .diverges
  | turns + 1, p =>
    if inRange p vend then do
      kfree finish p
      freerangeLoop vend turns (p + 4096)
    else pure ()

def freerange (vstart vend : UInt32) : KallocM Unit :=
  freerangeLoop finish vend (2 ^ 20) (pgroundup vstart)

def kinit1 (vstart vend : UInt32) : KallocM Unit := do
  modify fun s => { s with lock := false, useLock := false }
  freerange finish vstart vend

def kinit2 (vstart vend : UInt32) : KallocM Unit := do
  freerange finish vstart vend
  modify fun s => { s with useLock := true }

end

def kalloc : KallocM UInt32 := do
  acquire
  let r := (← get).freelist
  if r ≠ 0 then modify fun s => { s with freelist := next s.page r }
  release
  return r

/-- The pages that were returned by `kalloc` and not freed since. -/
structure State where
  kmem : Kmem
  allocated : List UInt32

inductive Label
  | kalloc
  | kfree (v : UInt32)
  | write (v : UInt32) (content : Page)

def step (finish : UInt32) (s : State) : Label → Option State
  | .kalloc =>
    match kalloc s.kmem with
    | .ok (r, kmem) => some ⟨kmem, if r = 0 then s.allocated else r :: s.allocated⟩
    | .error _ => none
  | .kfree v =>
    if v ∈ s.allocated then
      match kfree finish v s.kmem with
      | .ok (_, kmem) => some ⟨kmem, s.allocated.erase v⟩
      | .error _ => none
    else none
  | .write v content =>
    if v ∈ s.allocated then
      some { s with kmem := { s.kmem with page := Function.update s.kmem.page v content } }
    else none

/-- A page that `kfree` accepts. -/
def Usable (finish v : UInt32) : Prop :=
  v.toNat % pgsize = 0 ∧ finish ≤ v ∧ v - kernbase < phystop

structure Whole (vstart vend v : UInt32) : Prop where
  aligned : v.toNat % pgsize = 0
  above : vstart.toNat ≤ v.toNat
  below : v.toNat + pgsize ≤ vend.toNat

/-- The list that begins at `r` and ends with a null pointer. -/
def Linked (page : UInt32 → Page) : UInt32 → List UInt32 → Prop
  | r, [] => r = 0
  | r, v :: rest => r = v ∧ v ≠ 0 ∧ Linked page (next page v) rest

section

variable {s : Kmem} {finish v : UInt32} {free : List UInt32}

theorem Usable.lt (usable : Usable finish v) : v.toNat < 0x8E000000 := by
  have below := UInt32.lt_iff_toNat_lt.mp usable.2.2
  rw [UInt32.toNat_sub] at below
  change (2 ^ 32 - 0x80000000 + v.toNat) % 2 ^ 32 < 0xE000000 at below
  have bound := v.toNat_lt
  omega

theorem Usable.ne_zero (usable : Usable finish v) : v ≠ 0 := by
  rintro rfl
  exact absurd usable.2.2 (by decide)

theorem kfree_of_usable (usable : Usable finish v) (unlocked : s.lock = false) :
    kfree finish v s = .ok ((), s.push v) := by
  have accepted : ¬(v.toNat % pgsize ≠ 0 ∨ v < finish ∨ v - kernbase ≥ phystop) := by
    rintro (odd | low | high)
    · exact odd usable.1
    · exact UInt32.not_lt.mpr usable.2.1 low
    · exact UInt32.not_le.mpr usable.2.2 high
  have filled : setWord (update s.page v (fun _ => 1) v) 0 s.freelist =
      setWord (fun _ => 1) 0 s.freelist := by rw [update_self]
  obtain ⟨page, lock, useLock, freelist⟩ := s
  cases unlocked
  rw [kfree, if_neg accepted, Kmem.push, ← filled, ← update_idem (a := v) (fun _ => (1 : UInt8))]
  cases useLock with
  | false | true => rfl

theorem ensures_kalloc (unlocked : s.lock = false) {after : UInt32 → Kmem → Prop}
    {fails : Panic → Prop} :
    Ensures kalloc s after fails ↔ after s.freelist { s with
      freelist := if s.freelist ≠ 0 then next s.page s.freelist else s.freelist } := by
  obtain ⟨page, lock, useLock, freelist⟩ := s
  cases unlocked
  by_cases null : freelist = 0
  · subst null
    cases useLock with
    | false | true => rfl
  · cases useLock with
    | false | true =>
      simp only [kalloc, acquire, release, ensures_bind, ensures_get, ensures_modify, ensures_pure,
        ne_eq, null, not_false_eq_true, if_true, Bool.false_eq_true, if_false]

theorem Linked.congr {page page' : UInt32 → Page} {r : UInt32} (linked : Linked page r free)
    (same : ∀ v ∈ free, page' v = page v) : Linked page' r free := by
  induction free generalizing r with
  | nil => exact linked
  | cons v rest induction =>
    obtain ⟨first, nonzero, linked⟩ := linked
    refine ⟨first, nonzero, ?_⟩
    rw [next, same v mem_cons_self]
    exact induction linked fun other member => same other (mem_cons_of_mem v member)

theorem Linked.push (linked : Linked s.page s.freelist free) (outside : v ∉ free)
    (nonzero : v ≠ 0) : Linked (s.push v).page v (v :: free) := by
  have link : next (s.push v).page v = s.freelist := by
    change getWord (update s.page v _ v) 0 = _
    rw [update_self]
    exact getWord_setWord (by decide) _ _
  refine ⟨rfl, nonzero, ?_⟩
  rw [link]
  refine linked.congr fun other member => update_of_ne ?_ _ _
  rintro rfl
  exact outside member

/-- The managed pages are those on the list and those that are allocated. -/
structure Partitioned (finish : UInt32) (managed : UInt32 → Prop) (s : State)
    (free : List UInt32) : Prop where
  linked : Linked s.kmem.page s.kmem.freelist free
  nodup : (free ++ s.allocated).Nodup
  all : ∀ v, v ∈ free ++ s.allocated ↔ managed v
  usable : ∀ v, managed v → Usable finish v
  unlocked : s.kmem.lock = false

end

section

variable {finish v : UInt32} {managed : UInt32 → Prop} {s s' : State} {free : List UInt32}

theorem Partitioned.move (partitioned : Partitioned finish managed s free) {free' : List UInt32}
    (linked : Linked s'.kmem.page s'.kmem.freelist free')
    (moved : (free' ++ s'.allocated).Perm (free ++ s.allocated))
    (unlocked : s'.kmem.lock = false) : Partitioned finish managed s' free' where
  linked := linked
  nodup := moved.nodup_iff.mpr partitioned.nodup
  all := fun v => moved.mem_iff.trans (partitioned.all v)
  usable := partitioned.usable
  unlocked := unlocked

theorem Partitioned.step {label : Label} (partitioned : Partitioned finish managed s free)
    (stepped : step finish s label = some s') : ∃ free', Partitioned finish managed s' free' := by
  obtain ⟨distinct, _, apart⟩ := nodup_append.mp partitioned.nodup
  cases label with
  | kalloc =>
    obtain ⟨r, kmem, performed, rfl, rfl⟩ := ((ensures_kalloc partitioned.unlocked).mpr
      ⟨rfl, rfl⟩ : Ensures kalloc s.kmem (fun r kmem => r = _ ∧ kmem = _) _).exists_ok
    simp only [Kalloc.step, performed] at stepped
    cases stepped
    cases free with
    | nil =>
      have null : s.kmem.freelist = 0 := partitioned.linked
      refine ⟨[], partitioned.move ?_ ?_ partitioned.unlocked⟩
      · simp [null, Linked]
      · simp [null]
    | cons v rest =>
      obtain ⟨first, nonzero, linked⟩ := partitioned.linked
      rw [first]
      refine ⟨rest, partitioned.move ?_ ?_ partitioned.unlocked⟩
      · simpa [nonzero] using linked
      · simp [nonzero]
  | kfree v =>
    simp only [Kalloc.step] at stepped
    split at stepped
    next member =>
      have managed : managed v := (partitioned.all v).mp (mem_append_right _ member)
      have usable := partitioned.usable v managed
      have outside : v ∉ free := fun free => apart v free v member rfl
      rw [kfree_of_usable usable partitioned.unlocked] at stepped
      cases stepped
      refine ⟨v :: free, partitioned.move (partitioned.linked.push outside usable.ne_zero) ?_
        partitioned.unlocked⟩
      exact perm_middle.symm.trans ((perm_cons_erase member).symm.append_left free)
    next => cases stepped
  | write v content =>
    obtain ⟨member, rfl⟩ := of_guard stepped
    refine ⟨free, partitioned.move (partitioned.linked.congr ?_) (.refl _) partitioned.unlocked⟩
    intro other free
    refine update_of_ne ?_ _ _
    rintro rfl
    exact apart other free other member rfl

variable {p vend vstart : UInt32} {kmem : Kmem}

theorem inRange_iff : inRange p vend = true ↔ p + 4096 ≤ vend := by
  unfold inRange
  exact decide_eq_true_iff

theorem kfree_of_not_usable (refused : ¬Usable finish v) : kfree finish v kmem = .error .kfree := by
  have panics : v.toNat % pgsize ≠ 0 ∨ v < finish ∨ v - kernbase ≥ phystop := by
    by_contra accepted
    rw [not_or, not_or, not_not, UInt32.not_lt, ge_iff_le, UInt32.not_le] at accepted
    exact refused accepted
  rw [kfree, if_pos panics]
  rfl

theorem whole_iff (aligned : p.toNat % pgsize = 0) (fits : p.toNat + pgsize < 2 ^ 32)
    (more : p + 4096 ≤ vend) : Whole p vend v ↔ v = p ∨ Whole (p + 4096) vend v := by
  have sum : (p + 4096).toNat = p.toNat + 4096 := by
    rw [UInt32.toNat_add]
    exact Nat.mod_eq_of_lt fits
  rw [UInt32.le_iff_toNat_le, sum] at more
  change p.toNat % 4096 = 0 at aligned
  constructor
  · intro whole
    have multiple := whole.aligned
    have above := whole.above
    change v.toNat % 4096 = 0 at multiple
    by_cases same : v.toNat = p.toNat
    · exact .inl (UInt32.toNat_inj.mp same)
    · exact .inr ⟨multiple, by omega, whole.below⟩
  · rintro (rfl | whole)
    · exact ⟨aligned, Nat.le_refl _, more⟩
    · exact ⟨whole.aligned, by have := whole.above; omega, whole.below⟩

theorem toNat_pgroundup (a : UInt32) :
    (pgroundup a).toNat = 4096 * ((a.toNat + 4095) % 2 ^ 32 / 4096) := by
  have bound := a.toNat_lt
  change (Vm.pgrounddown (a + 4096 - 1)).toNat = _
  rw [Vm.toNat_pgrounddown, Vm.vpn, UInt32.toNat_sub, UInt32.toNat_add]
  change 4096 * ((2 ^ 32 - 1 + (a.toNat + 4096) % 2 ^ 32) % 2 ^ 32 / 4096) = _
  omega

theorem pgroundup_of_aligned {a : UInt32} (aligned : a.toNat % pgsize = 0) : pgroundup a = a := by
  have bound := a.toNat_lt
  change a.toNat % 4096 = 0 at aligned
  rw [← UInt32.toNat_inj, toNat_pgroundup]
  omega

/-- The two ranges are one if they meet at a page. -/
theorem whole_or_whole {m : UInt32} (early : vstart ≤ m) (late : m ≤ vend)
    (aligned : m.toNat % pgsize = 0) :
    Whole (pgroundup vstart) m v ∨ Whole m vend v ↔ Whole (pgroundup vstart) vend v := by
  rw [UInt32.le_iff_toNat_le] at early late
  change m.toNat % 4096 = 0 at aligned
  have rounded : (pgroundup vstart).toNat ≤ m.toNat := by
    rw [toNat_pgroundup]
    omega
  constructor
  · rintro (lower | upper)
    · exact ⟨lower.aligned, lower.above, lower.below.trans late⟩
    · exact ⟨upper.aligned, rounded.trans upper.above, upper.below⟩
  · intro whole
    have multiple := whole.aligned
    change v.toNat % 4096 = 0 at multiple
    rcases Nat.lt_or_ge v.toNat m.toNat with below | above
    · refine .inl ⟨multiple, whole.above, ?_⟩
      change v.toNat + 4096 ≤ m.toNat
      omega
    · exact .inr ⟨multiple, above, whole.below⟩

/-- The pages of the range are added.  `kfree` accepts no page so high that the loop could
go round. -/
theorem freerangeLoop_ensures {turns : Nat}
    (partitioned : Partitioned finish managed ⟨kmem, []⟩ free)
    (enough : 2 ^ 32 ≤ p.toNat + pgsize * turns) (aligned : p.toNat % pgsize = 0)
    (apart : ∀ v, managed v → ¬Whole p vend v) :
    Ensures (freerangeLoop finish vend turns p) kmem
      (fun _ kmem' => ∃ free',
        Partitioned finish (fun v => managed v ∨ Whole p vend v) ⟨kmem', []⟩ free')
      (· = .kfree) := by
  induction turns generalizing p kmem managed free with
  | zero =>
    have bound := p.toNat_lt
    rw [Nat.mul_zero] at enough
    omega
  | succ turns induction =>
    rw [freerangeLoop]
    split
    next test =>
      have more := inRange_iff.mp test
      by_cases usable : Usable finish p
      · have bound := usable.lt
        have fits : p.toNat + pgsize < 2 ^ 32 := by
          change _ + 4096 < _
          omega
        have sum : (p + 4096).toNat = p.toNat + pgsize := by
          rw [UInt32.toNat_add]
          exact Nat.mod_eq_of_lt fits
        have whole := fun v => whole_iff (v := v) aligned fits more
        have outside : p ∉ free := by
          intro member
          exact apart p ((partitioned.all p).mp (mem_append_left _ member))
            ((whole p).mpr (.inl rfl))
        have added : Partitioned finish (fun v => managed v ∨ v = p) ⟨kmem.push p, []⟩
            (p :: free) := {
          linked := partitioned.linked.push outside usable.ne_zero
          nodup := by
            have nodup := partitioned.nodup
            rw [append_nil] at nodup ⊢
            exact nodup_cons.mpr ⟨outside, nodup⟩
          all := by
            intro v
            rw [← partitioned.all v, cons_append, mem_cons, or_comm]
          usable := by
            rintro v (old | rfl)
            · exact partitioned.usable v old
            · exact usable
          unlocked := partitioned.unlocked }
        rw [ensures_bind_of_ok (kfree_of_usable usable partitioned.unlocked)]
        refine (induction added ?_ ?_ ?_).weaken ?_
        · rw [Nat.mul_succ] at enough
          omega
        · rw [sum, Nat.add_mod_right]
          exact aligned
        · rintro v (old | rfl) later
          · exact apart v old ((whole v).mpr (.inr later))
          · have above := later.above
            rw [sum] at above
            change _ + 4096 ≤ _ at above
            omega
        · rintro _ kmem' ⟨free', partitioned'⟩
          refine ⟨free', { partitioned' with all := ?_, usable := ?_ }⟩
          · intro v
            rw [partitioned'.all v, whole v, or_assoc]
          · intro v member
            rw [whole v, ← or_assoc] at member
            exact partitioned'.usable v member
      · rw [ensures_bind, Ensures, kfree_of_not_usable usable]
    next test =>
      rw [inRange_iff] at test
      have none : ∀ v, ¬Whole p vend v := by
        intro v whole
        have above := whole.above
        have below := whole.below
        have bound := vend.toNat_lt
        apply test
        rw [UInt32.le_iff_toNat_le, UInt32.toNat_add]
        change (p.toNat + 4096) % 2 ^ 32 ≤ _
        change v.toNat + 4096 ≤ _ at below
        omega
      refine ⟨free, { partitioned with all := ?_, usable := ?_ }⟩
      · intro v
        rw [partitioned.all v, or_iff_left (none v)]
      · intro v member
        exact partitioned.usable v ((or_iff_left (none v)).mp member)

theorem freerange_ensures (partitioned : Partitioned finish managed ⟨kmem, []⟩ free)
    (apart : ∀ v, managed v → ¬Whole (pgroundup vstart) vend v) :
    Ensures (freerange finish vstart vend) kmem
      (fun _ kmem' => ∃ free', Partitioned finish
        (fun v => managed v ∨ Whole (pgroundup vstart) vend v) ⟨kmem', []⟩ free')
      (· = .kfree) := by
  have enough : 2 ^ 32 ≤ (pgroundup vstart).toNat + pgsize * 2 ^ 20 := Nat.le_add_left _ _
  have aligned : (pgroundup vstart).toNat % pgsize = 0 := by
    rw [toNat_pgroundup]
    exact Nat.mul_mod_right _ _
  exact freerangeLoop_ensures partitioned enough aligned apart

/-- After the two initialisations, and whatever is allocated and freed since, the free list
ends without a repetition, and its pages and the allocated ones are the whole pages of the two
ranges; `kalloc` returns one of the list unless that is empty, and `kfree` does not panic. -/
theorem kalloc_partitions (finish vstart m vend : UInt32) {kmem : Kmem}
    (empty : kmem.freelist = 0) (aligned : m.toNat % pgsize = 0) :
    Ensures (do kinit1 finish vstart m; kinit2 finish m vend) kmem
      (fun _ booted => ∀ labels s, run (step finish) ⟨booted, []⟩ labels = some s →
        ∃ free, Linked s.kmem.page s.kmem.freelist free ∧ (free ++ s.allocated).Nodup ∧
          (∀ v, v ∈ free ∨ v ∈ s.allocated ↔
            Whole (pgroundup vstart) m v ∨ Whole m vend v) ∧
          (vstart ≤ m → m ≤ vend → ∀ v, v ∈ free ∨ v ∈ s.allocated ↔
            Whole (pgroundup vstart) vend v) ∧
          Ensures kalloc s.kmem
            (fun r _ => (r = 0 → free = []) ∧ r ∉ s.allocated) (fun _ => False) ∧
          ∀ v ∈ s.allocated, Ensures (kfree finish v) s.kmem (fun _ _ => True) fun _ => False)
      (· = .kfree) := by
  rw [kinit1, kinit2]
  simp only [ensures_bind, ensures_modify]
  have start : Partitioned finish (fun _ => False)
      ⟨{ kmem with lock := false, useLock := false }, []⟩ [] :=
    ⟨empty, nodup_nil, fun v => by simp, fun _ => False.elim, rfl⟩
  refine (freerange_ensures start fun _ => False.elim).weaken ?_
  rintro _ first ⟨free₁, partitioned₁⟩
  have apart : ∀ v, False ∨ Whole (pgroundup vstart) m v → ¬Whole (pgroundup m) vend v := by
    rintro v (absurd | lower) upper
    · exact absurd
    · have below := lower.below
      have above := upper.above
      rw [pgroundup_of_aligned aligned] at above
      change _ + 4096 ≤ _ at below
      omega
  refine (freerange_ensures partitioned₁ apart).weaken ?_
  rintro _ second ⟨free₂, partitioned₂⟩ labels s reached
  have started : Partitioned finish (fun v => Whole (pgroundup vstart) m v ∨ Whole m vend v)
      ⟨{ second with useLock := true }, []⟩ free₂ := by
    rw [pgroundup_of_aligned aligned] at partitioned₂
    simp only [false_or] at partitioned₂
    exact { partitioned₂ with }
  obtain ⟨free, partitioned⟩ := run_preserves (fun s => ∃ free, Partitioned finish _ s free)
    (fun _ _ _ before stepped => before.choose_spec.step stepped) ⟨free₂, started⟩ reached
  have members : ∀ v, v ∈ free ∨ v ∈ s.allocated ↔
      Whole (pgroundup vstart) m v ∨ Whole m vend v :=
    fun v => mem_append.symm.trans (partitioned.all v)
  refine ⟨free, partitioned.linked, partitioned.nodup, members, ?_, ?_, ?_⟩
  · intro early late v
    rw [members v]
    exact whole_or_whole early late aligned
  · refine (ensures_kalloc partitioned.unlocked).mpr ?_
    have linked := partitioned.linked
    cases free with
    | nil =>
      refine ⟨fun _ => rfl, fun member => ?_⟩
      rw [linked] at member
      exact (partitioned.usable 0 ((partitioned.all 0).mp (mem_append_right _ member))).ne_zero rfl
    | cons v rest =>
      rw [linked.1]
      refine ⟨fun null => absurd null linked.2.1, fun member => ?_⟩
      exact (nodup_append.mp partitioned.nodup).2.2 v mem_cons_self v member rfl
  · intro v member
    have usable := partitioned.usable v ((partitioned.all v).mp (mem_append_right _ member))
    rw [Ensures, kfree_of_usable usable partitioned.unlocked]
    trivial

end

def blank : Kmem := ⟨fun _ _ => 0, false, false, 0⟩

/-- Each range has one whole page.  Both are allocated, a third request fails, and a page is
freed and allocated again. -/
theorem kalloc_partitions_two :
    (((do kinit1 0x80100000 0x803FE001 0x80400000
          kinit2 0x80100000 0x80400000 0x80401800) blank).toOption.bind fun booted =>
      (run (step 0x80100000) ⟨booted.2, []⟩
        [.kalloc, .kalloc, .kalloc, .kfree 0x80400000, .kalloc]).map State.allocated) =
      some [0x80400000, 0x803FF000] ∧
    Ensures (do kinit1 0x80100000 0x803FE001 0x80400000; kinit2 0x80100000 0x80400000 0x80401800)
      blank
      (fun _ booted => ∀ labels s, run (step 0x80100000) ⟨booted, []⟩ labels = some s →
        ∃ free, Linked s.kmem.page s.kmem.freelist free ∧ (free ++ s.allocated).Nodup)
      (· = .kfree) := by
  refine ⟨by decide +kernel, ?_⟩
  apply (kalloc_partitions 0x80100000 0x803FE001 0x80400000 0x80401800 rfl (by decide)).weaken
  intro _ booted holds labels s reached
  obtain ⟨free, linked, nodup, _⟩ := holds labels s reached
  exact ⟨free, linked, nodup⟩

end StraceXv6.Kernel.Kalloc
