import StraceXv6.Kernel.Vm.Loading

namespace StraceXv6.Kernel.Vm

open List Data Data.Command

/-! The pages of memory that a failed `fork` or `exec` does not give back. -/

section

variable (kernel : Image)

/-- A kernel stack for the process; `slot` tells whether there is an unused entry in the
process table, and `layout` is what is written to the stack. -/
def allocproc (slot : Bool) (layout : Page → Page) : VmM (Option Nat) :=
  if slot then do
    match ← kalloc with
    | none => return none
    | some kstack => do
      modify fun m => m.setPage kstack (layout (m.page kstack))
      return some kstack
  else return none

def fork (slot : Bool) (layout : Page → Page) (pgdir : Nat) (sz : UInt32) :
    VmM (Option Nat) := do
  match ← allocproc slot layout with
  | none => return none
  | some kstack => do
    match ← copyuvm kernel pgdir sz with
    | none => do
      kfree kernel kstack
      return none
    | some child => return some child

inductive Call
  | fork (slot : Bool) (layout : Page → Page) (pgdir : Nat) (sz : UInt32)
  | exec (pgdir : Nat) (file : Option File) (argv : List Argument)

def Call.perform : Call → ExecM Bool
  | .fork slot layout pgdir sz => do return (← zoom (Vm.fork kernel slot layout pgdir sz)).isSome
  | .exec pgdir file argv => do return (← Vm.exec kernel pgdir file argv).isSome

end

/-- Of `free` pages, the last one is taken for a page whose page table there is no memory
for; or there are not enough of them for the kernel's mappings. -/
def Leaks (free asked : Nat) : Prop :=
  (1 ≤ free ∧ free ≤ 64) ∨ ∃ j, free = 66 + 1025 * j ∧ 1024 * j < asked

/-- Whether the call, if it fails, keeps pages, by the number of free pages.  `fork` has
taken one of them for the kernel stack. -/
def Call.Leaks (free : Nat) : Call → Prop
  | .fork slot _ _ sz => slot = true ∧ Vm.Leaks (free - 1) (pages sz)
  | .exec _ file _ =>
    ∃ ip elf, file = some ip ∧ ip.header = some elf ∧
      Vm.Leaks free (ip.asked elf.phnum elf.phoff 0)

variable {free k : Nat}

theorem not_leaks (left : Nat) (spent : left + 65 + k + (k + 1023) / 1024 = free) :
    ¬Leaks free k := by
  rintro (⟨_, few⟩ | ⟨j, exactly, below⟩)
  · omega
  · omega

theorem not_leaks_of_refused (spent : free = 65 + k + (k + 1023) / 1024) (asked : Nat) :
    ¬Leaks free asked := by
  rintro (⟨_, few⟩ | ⟨j, exactly, _⟩)
  · omega
  · omega

section

variable {kernel : Image} {m m' : Memory} {d k : Nat} {fails : Panic → Prop}

def Untouched (initial m : Memory) : Prop :=
  ∀ g, g ∉ initial.freelist → m.page g = initial.page g

inductive Held (kernel : Image) (initial : Memory) (k : Nat) (m : Memory) (d : Nat) : Prop
  | full {size : Nat} (length : initial.freelist.length = size + 1)
      (populated : Populated kernel (· ∉ initial.freelist) size k m d)
      (untouched : Untouched initial m)
  | lost {f j : Nat} (free : f ∈ initial.freelist)
      (directory : Directory kernel (fun g => g ∉ initial.freelist ∨ g = f) m d)
      (supervised : Supervised m d)
      (unmapped : ∀ {v}, k ≤ v → v < userPages → ¬present (m.entry d v))
      (empty : m.freelist = []) (length : initial.freelist.length = 66 + 1025 * j)
      (below : 1024 * j < k) (untouched : Untouched initial m)

structure Added (d start stop : Nat) (m m' : Memory) : Prop where
  entries : ∀ {v}, v < start → m'.entry d v = m.entry d v
  content : ∀ {v}, v < start → present (m.entry d v) →
    m'.page (frame (m.entry d v)) = m.page (frame (m.entry d v))
  zero : ∀ {v}, start ≤ v → v < stop → present (m'.entry d v) →
    Accessible (m'.entry d v) ∧ m'.page (frame (m'.entry d v)) = fun _ => 0
  full : start < stop → ∀ v < start, present (m.entry d v)

/-- What is not reserved is what was free, unless a page is lost. -/
def Settled (kernel : Image) (initial : Memory) (asked : Nat) (m : Memory) (d : Nat) : Prop :=
  ∃ reserved, Directory kernel reserved m d ∧ (∀ g, g ∉ initial.freelist → reserved g) ∧
    Untouched initial m ∧ ((∀ f, ¬reserved f ↔ f ∈ initial.freelist) ↔ ¬Leaks initial.freelist.length asked)

variable {initial : Memory} {asked n oldpgdir : Nat} {sz : UInt32} {trace : List Event}
  {argv : List Argument}

theorem Settled.of_kept (directory : Directory kernel (· ∉ initial.freelist) m d)
    (untouched : Untouched initial m) (kept : ¬Leaks initial.freelist.length asked) :
    Settled kernel initial asked m d :=
  ⟨_, directory, fun _ => id, untouched, iff_of_true (fun _ => not_not) kept⟩

theorem Settled.of_lost {f : Nat} (free : f ∈ initial.freelist)
    (directory : Directory kernel (fun g => g ∉ initial.freelist ∨ g = f) m d)
    (untouched : Untouched initial m) (lost : Leaks initial.freelist.length asked) :
    Settled kernel initial asked m d := by
  refine ⟨_, directory, fun _ => .inl, untouched, iff_of_false (fun all => ?_) (not_not.mpr lost)⟩
  exact (all f).mpr free (.inr rfl)

theorem Settled.rewritten (settled : Settled kernel initial asked m d)
    (rewritten : Rewritten d m m') : Settled kernel initial asked m' d := by
  obtain ⟨reserved, directory, apart, untouched, exact_⟩ := settled
  exact ⟨reserved, rewritten.directory directory, apart, fun g used =>
    (rewritten.page_of_reserved directory (apart g used)).trans (untouched g used), exact_⟩

theorem Settled.freevm (settled : Settled kernel initial asked m d) :
    Ensures (freevm kernel d) m
      (fun _ m' => Untouched initial m' ∧ ((∀ f, f ∈ m'.freelist ↔ f ∈ initial.freelist) ↔
        ¬Leaks initial.freelist.length asked)) fails := by
  obtain ⟨reserved, directory, apart, untouched, exact_⟩ := settled
  refine (freevm_ensures directory).weaken ?_
  intro _ m' freed
  refine ⟨fun g used => (freed.kept g (apart g used)).trans (untouched g used), ?_⟩
  rw [← exact_]
  exact forall_congr' fun f => iff_congr (freed.free f) Iff.rfl

theorem Grown.added {reserved initially : Nat → Prop} {start stop : Nat}
    (grown : Grown kernel reserved d start n m m') (directory : Directory kernel initially m d)
    (inside : start ≤ userPages) (full : start < stop → ∀ v < start, present (m.entry d v))
    (rest : ∀ {v}, start + n ≤ v → v < stop → ¬present (m.entry d v)) :
    Added d start stop m m' where
  full := full
  entries := fun below => grown.entries (.inl below)
  content := fun below mapped =>
    grown.extended.page_of_mapped directory (below.trans_le inside) mapped
  zero := by
    intro v above below mapped
    by_cases new : v < start + n
    · obtain ⟨f, small, entry, zeros⟩ := grown.mapped above new
      rw [entry, frame_entry small (by decide), zeros]
      exact ⟨accessible_entry small, rfl⟩
    · rw [grown.entries (.inr (Nat.le_of_not_lt new))] at mapped
      exact absurd mapped (rest (Nat.le_of_not_lt new) below)

namespace Held

theorem settled (held : Held kernel initial k m d) : Settled kernel initial k m d := by
  cases held with
  | full length populated untouched =>
    have spent := populated.spent
    exact .of_kept populated.directory untouched (not_leaks m.freelist.length (by omega))
  | lost free directory _ _ _ length below untouched =>
    exact .of_lost free directory untouched (.inr ⟨_, length, below⟩)

theorem supervised (held : Held kernel initial k m d) : Supervised m d := by
  cases held with
  | full _ populated _ => exact fun _ => populated.supervisor
  | lost _ _ supervised _ _ _ _ _ => exact supervised

theorem rewritten (held : Held kernel initial k m d) (rewritten : Rewritten d m m') :
    Held kernel initial k m' d := by
  cases held with
  | full length populated untouched =>
    exact .full length (rewritten.populated populated) fun g used =>
      (rewritten.page_of_reserved populated.directory used).trans (untouched g used)
  | lost free directory supervised unmapped empty length below untouched =>
    refine .lost free (rewritten.directory directory) ?_ ?_ ?_ length below fun g used =>
      (rewritten.page_of_reserved directory (.inl used)).trans (untouched g used)
    · rw [Supervised, rewritten.entries]
      exact supervised
    · rw [rewritten.entries]
      exact unmapped
    · rw [rewritten.list, empty]

variable {newsz result : UInt32} {stop : Nat}

theorem allocated_full {size : Nat} (length : initial.freelist.length = size + 1)
    (populated : Populated kernel (· ∉ initial.freelist) size k m d)
    (untouched : Untouched initial m) (ordered : k ≤ stop) (inside : stop ≤ userPages)
    (allocated : Allocated kernel (· ∉ initial.freelist) d k stop newsz m result m') :
    (result = newsz ∧ Held kernel initial stop m' d ∧ Added d k stop m m') ∨
    (result = 0 ∧ ∀ asked, stop ≤ asked → Settled kernel initial asked m' d) := by
  have sum : k + (stop - k) = stop := by omega
  have before := populated.spent
  -- what was free at the start of this call was free at the start of `exec`
  have free : ∀ {f}, f ∈ m.freelist → f ∈ initial.freelist := fun free =>
    not_not.mp ((populated.directory.free_iff _).mp free).1
  have extended : Extends d m m' → Untouched initial m' := fun extended g used =>
    (extended.page_of_reserved populated.directory used).trans (untouched g used)
  have mapped : k < stop → ∀ v < k, present (m.entry d v) :=
    fun _ v below => (populated.mapped v).mpr (.inr below)
  cases allocated with
  | grown spent grown =>
    have all := populated.grow (by omega) grown spent
    rw [sum] at all
    exact .inl ⟨rfl, .full length all (extended grown.extended),
      grown.added populated.directory (by omega) mapped (by omega)⟩
  | @refused j _ below spent refused =>
    have used := populated.cost_eq (n := j) (by omega)
    refine .inr ⟨rfl, fun asked _ => .of_kept refused.directory (fun g used =>
      (refused.untouched used fun isFree => used (free isFree)).trans (untouched g used)) ?_⟩
    exact not_leaks_of_refused (k := k + j) (by omega) asked
  | @lost j f _ below table spent isFree refused =>
    have used := populated.cost_eq (n := j) (by omega)
    have boundary := (populated.newTable_iff (j := j) (by omega)).mp table
    refine .inr ⟨rfl, fun asked large => .of_lost (free isFree) refused.directory (fun g used =>
      (refused.untouched (.inl used) fun isFree => used (free isFree)).trans (untouched g used)) ?_⟩
    exact .inr ⟨(k + j) / 1024, by omega, by omega⟩
  | @unnoticed j f _ last table spent isFree grown empty =>
    have used := populated.cost_eq (n := j) (by omega)
    have boundary := (populated.newTable_iff (j := j) (by omega)).mp table
    refine .inl ⟨rfl, .lost (j := (k + j) / 1024) (free isFree) grown.directory ?_ ?_ empty
      (by omega) (by omega) (extended grown.extended), grown.added populated.directory (by omega) mapped
        fun above below => populated.unmapped (by omega) (by omega)⟩
    · intro v above
      rw [grown.entries (by omega)]
      exact populated.supervisor above
    · intro v above user
      rw [grown.entries (by omega)]
      exact populated.unmapped (by omega) user

theorem allocated_lost {f j : Nat} (free : f ∈ initial.freelist)
    (directory : Directory kernel (fun g => g ∉ initial.freelist ∨ g = f) m d)
    (untouched : Untouched initial m) (supervised : Supervised m d)
    (unmapped : ∀ {v}, k ≤ v → v < userPages → ¬present (m.entry d v)) (empty : m.freelist = [])
    (length : initial.freelist.length = 66 + 1025 * j) (below : 1024 * j < k) (ordered : k ≤ stop)
    (inside : stop ≤ userPages)
    (allocated : Allocated kernel (fun g => g ∉ initial.freelist ∨ g = f) d k stop newsz m
      result m') :
    (result = newsz ∧ Held kernel initial stop m' d ∧ Added d k stop m m') ∨
    (result = 0 ∧ ∀ asked, stop ≤ asked → Settled kernel initial asked m' d) := by
  have nothing : m.freelist.length = 0 := by rw [empty, length_nil]
  cases allocated with
  | grown spent grown =>
    have none : stop - k = 0 := by
      by_contra more
      have first := cost_lt m d k (Nat.pos_of_ne_zero more)
      omega
    rw [none] at grown
    refine .inl ⟨rfl, .lost free grown.directory ?_ ?_ ?_ length (by omega) fun g used =>
      (grown.extended.page_of_reserved directory (.inl used)).trans (untouched g used),
      grown.added directory (by omega) (by omega) (by omega)⟩
    · intro v above
      rw [grown.entries (by omega)]
      exact supervised v above
    · intro v above user
      rw [grown.entries (by omega)]
      exact unmapped (by omega) user
    · exact length_eq_zero_iff.mp (by omega)
  | refused _ _ refused =>
    exact .inr ⟨rfl, fun asked large => .of_lost free refused.directory (fun g used =>
      (refused.untouched (.inl used) (empty ▸ not_mem_nil)).trans (untouched g used))
      (.inr ⟨j, length, by omega⟩)⟩
  | lost _ _ spent _ _ | unnoticed _ _ spent _ _ _ => omega

theorem allocuvm {oldsz : UInt32} (held : Held kernel initial (pages oldsz) m d)
    (ordered : oldsz ≤ newsz) (limit : newsz < kernbase) :
    Ensures (allocuvm kernel d oldsz newsz) m
      (fun result m' =>
        (result = newsz ∧ Held kernel initial (pages newsz) m' d ∧
          Added d (pages oldsz) (pages newsz) m m') ∨
        (result = 0 ∧ ∀ asked, pages newsz ≤ asked → Settled kernel initial asked m' d))
      fails := by
  have inside := pages_le (UInt32.le_of_lt limit)
  have grows : pages oldsz ≤ pages newsz := by
    rw [UInt32.le_iff_toNat_le] at ordered
    change (oldsz.toNat + 4095) / 4096 ≤ (newsz.toNat + 4095) / 4096
    omega
  cases held with
  | full length populated untouched =>
    refine (allocuvm_ensures limit ordered (fun above below =>
      populated.unmapped above (below.trans_le inside)) populated.directory).weaken ?_
    exact fun _ _ allocated => allocated_full length populated untouched grows inside allocated
  | lost free directory supervised unmapped empty length below untouched =>
    refine (allocuvm_ensures limit ordered (fun above below =>
      unmapped above (below.trans_le inside)) directory).weaken ?_
    exact fun _ _ allocated =>
      allocated_lost free directory untouched supervised unmapped empty length below grows inside
        allocated

end Held

theorem Held.allocuvm_max {newsz : UInt32} (held : Held kernel initial (pages sz) m d)
    (limit : newsz < kernbase) :
    Ensures (Vm.allocuvm kernel d sz newsz) m
      (fun result m' =>
        (result = grownTo sz newsz ∧ Held kernel initial (pages (grownTo sz newsz)) m' d ∧
          Added d (pages sz) (pages (grownTo sz newsz)) m m') ∨
        (result = 0 ∧ ∀ asked, pages (grownTo sz newsz) ≤ asked →
          Settled kernel initial asked m' d))
      fails := by
  by_cases less : newsz < sz
  · rw [Vm.allocuvm, if_neg (UInt32.not_le.mpr limit), if_pos less, grownTo, if_pos less]
    exact .inl ⟨rfl, held, fun _ => rfl, fun _ _ => rfl, by omega, by omega⟩
  · have ordered := UInt32.not_lt.mp less
    rw [grownTo, if_neg less]
    exact held.allocuvm ordered limit

theorem loadSegments_held {ip : File} {off : UInt32} (held : Held kernel initial (pages sz) m d)
    (small : sz < kernbase) :
    Ensures (loadSegments kernel d ip n off sz) (m, trace)
      (fun result s => match result with
        | none => Settled kernel initial (ip.asked n off sz) s.1 d
        | some sz' => Held kernel initial (pages sz') s.1 d ∧ sz' < kernbase ∧
            withStack sz' = ip.asked n off sz)
      fun _ => True := by
  induction n generalizing off sz m trace with
  | zero => exact ⟨held, small, rfl⟩
  | succ n induction =>
    rw [loadSegments, File.asked]
    cases found : ip.segment off with
    | none => exact held.settled
    | some ph =>
      dsimp only
      by_cases load : ph.type ≠ elfProgLoad
      · rw [if_pos load, if_pos load]
        exact induction held small
      rw [if_neg load, if_neg load]
      by_cases short : ph.memsz < ph.filesz
      · rw [if_pos short, if_pos short]
        exact held.settled
      rw [if_neg short, if_neg short, ensures_bind, ensures_zoom]
      by_cases above : kernbase ≤ ph.vaddr + ph.memsz
      · rw [if_pos above, Vm.allocuvm, if_pos above]
        exact held.settled
      have limit := UInt32.not_le.mp above
      have asks := ip.pages_grownTo_le_asked n sz found load short above
      rw [File.asked, found] at asks
      dsimp only at asks
      rw [if_neg load, if_neg short, if_neg above] at asks
      rw [if_neg above]
      refine (held.allocuvm_max limit).weaken ?_
      have larger : grownTo sz (ph.vaddr + ph.memsz) < kernbase := grownTo_lt small limit
      have atLeast := pages_le_grownTo sz (ph.vaddr + ph.memsz)
      generalize grownTo sz (ph.vaddr + ph.memsz) = newsz at larger atLeast asks ⊢
      rintro result m₁ (⟨same, held₁, _⟩ | ⟨rfl, settled⟩)
      · rw [same]
        by_cases nothing : newsz = 0
        · subst nothing
          rw [if_pos rfl, if_pos rfl]
          have none : pages sz = 0 := Nat.le_zero.mp atLeast
          rw [none]
          exact held₁.settled
        rw [if_neg nothing, if_neg nothing, ensures_bind, ensures_emit, ensures_bind]
        obtain ⟨reserved, directory, _⟩ := held₁.settled
        refine (loaduvm_rewrites directory).weaken ?_
        rintro result ⟨m₂, trace'⟩ ⟨loaded, rewritten⟩
        have held₂ := held₁.rewritten rewritten
        cases result with
        | false =>
          have less : ip.available ph.off ph.filesz < ph.filesz.toNat :=
            Nat.lt_of_le_of_ne (Nat.min_le_left ..) fun all =>
              absurd (loaded.mpr all) Bool.false_ne_true
          rw [if_pos less]
          exact held₂.settled
        | true =>
          rw [if_neg (Nat.not_lt_of_le (Nat.le_of_eq (loaded.mp rfl).symm))]
          exact induction held₂ larger
      · rw [if_pos rfl]
        exact settled _ asks

theorem pushStack_settled (held : Held kernel initial (pages sz) m d) (small : sz < kernbase) :
    Ensures (pushStack kernel d sz argv) m
      (fun _ m' => Settled kernel initial (withStack sz) m' d) fun _ => True := by
  have ordered := (pages_stack small).1
  have same := (pages_stack small).2.1
  have more := (pages_stack small).2.2
  unfold pushStack
  rw [withStack, ensures_bind]
  -- the sizes stay variables, so that no step of the proof computes with them
  generalize pgroundup sz + 2 * 4096 = newsz at ordered more ⊢
  generalize pgroundup sz = base at ordered same ⊢
  by_cases above : kernbase ≤ newsz
  · rw [Vm.allocuvm, if_pos above, if_pos above]
    exact held.settled
  rw [if_neg above, ← more]
  rw [← same] at held
  refine (held.allocuvm ordered (UInt32.not_le.mp above)).weaken ?_
  rintro result m₁ (⟨rfl, held₁, _⟩ | ⟨rfl, settled⟩)
  · split
    next => exact held₁.settled
    next =>
      obtain ⟨reserved, directory, apart, untouched, exact_⟩ := held₁.settled
      refine (clearpteu_ensures directory fun _ => trivial).seq ?_
      intro _ m₂ guarded
      have supervised := guarded.supervised held₁.supervised
      have settled : Settled kernel initial (pages result) m₂ d :=
        ⟨reserved, guarded.directory, apart, fun g used => (guarded.kept fun i isTable =>
          directory.apart (.table i) isTable (apart g used)).trans (untouched g used), exact_⟩
      refine (pushArguments_rewrites guarded.directory supervised).seq ?_
      intro pushed m₃ rewritten
      cases pushed with
      | none => exact settled.rewritten rewritten
      | some pushed =>
        have supervised' : Supervised m₃ d := by
          rw [Supervised, rewritten.entries]
          exact supervised
        refine (copyout_rewrites (rewritten.directory guarded.directory) supervised').seq ?_
        intro copied m₄ rewritten'
        cases copied with
        | true | false => exact (settled.rewritten rewritten).rewritten rewritten'
  · rw [if_pos rfl]
    exact settled _ (Nat.le_refl _)

/-- The image that was built, or what is left of it, is given up when `exec` fails. -/
theorem finishExec_settled {elf : Elfhdr} {loaded : Option UInt32} (ready : match loaded with
      | none => Settled kernel initial asked m d
      | some sz => Held kernel initial (pages sz) m d ∧ sz < kernbase ∧ withStack sz = asked) :
    Ensures (finishExec kernel oldpgdir d elf argv loaded) m
      (fun result m' => result = none → Untouched initial m' ∧
        ((∀ f, f ∈ m'.freelist ↔ f ∈ initial.freelist) ↔
          ¬Leaks initial.freelist.length asked))
      fun _ => True := by
  cases loaded with
  | none =>
    refine (Settled.freevm ready).seq ?_
    exact fun _ _ exact_ _ => exact_
  | some sz =>
    have both : Held kernel initial (pages sz) m d ∧ sz < kernbase ∧ withStack sz = asked :=
      ready
    rw [finishExec, ensures_bind, ← both.2.2]
    refine (pushStack_settled both.1 both.2.1).weaken ?_
    intro result m₁ settled
    cases result with
    | none =>
      refine (Settled.freevm settled).seq ?_
      exact fun _ _ exact_ _ => exact_
    | some result =>
      refine (ensures_trivial _ m₁).seq ?_
      exact fun _ _ _ isNone => by cases isNone

theorem exec_settled {file : Option File} (sound : Sound kernel m) :
    Ensures (exec kernel oldpgdir file argv) (m, trace)
      (fun result s => result = none → Untouched m s.1 ∧
        ((∀ f, f ∈ s.1.freelist ↔ f ∈ m.freelist) ↔
          ¬(Call.exec oldpgdir file argv).Leaks m.freelist.length))
      fun _ => True := by
  cases file with
  | none =>
    refine fun _ => ⟨fun _ _ => rfl, iff_of_true (fun _ => Iff.rfl) ?_⟩
    rintro ⟨ip, _, isFile, _⟩
    cases isFile
  | some ip =>
    rw [exec]
    cases header : ip.header with
    | none =>
      refine fun _ => ⟨fun _ _ => rfl, iff_of_true (fun _ => Iff.rfl) ?_⟩
      rintro ⟨_, elf, isFile, accepted, _⟩
      rw [← Option.some.inj isFile, header] at accepted
      cases accepted
    | some elf =>
      have leaks : (Call.exec oldpgdir (some ip) argv).Leaks m.freelist.length ↔
          Leaks m.freelist.length (ip.asked elf.phnum elf.phoff 0) := by
        constructor
        · rintro ⟨_, _, isFile, accepted, leaks⟩
          rw [← Option.some.inj isFile, header] at accepted
          rw [Option.some.inj isFile, Option.some.inj accepted]
          exact leaks
        · exact fun leaks => ⟨ip, elf, rfl, header, leaks⟩
      simp only [leaks]
      rw [ensures_bind, ensures_zoom]
      refine (setupkvm_ensures sound).weaken ?_
      rintro result m₁ (⟨d, size, rfl, length, built, kept⟩ | ⟨rfl, few, empty, kept⟩)
      · refine (loadSegments_held (.full length built.populated kept) (by decide)).seq ?_
        rintro loaded ⟨m₂, trace'⟩ ready
        rw [ensures_zoom]
        exact finishExec_settled ready
      · refine fun _ => ⟨kept, ?_⟩
        simp only [empty, not_mem_nil, false_iff]
        constructor
        · rintro nothing (⟨some, _⟩ | ⟨j, exactly, _⟩)
          · obtain ⟨f, free⟩ := exists_mem_of_length_pos some
            exact nothing f free
          · omega
        · intro kept f free
          exact kept (.inl ⟨length_pos_of_mem free, by omega⟩)

theorem free_kstack_iff {kstack : Nat} {rest free : List Nat} (once : kstack ∉ rest)
    (shorter : ∀ f ∈ free, f ∈ rest) :
    (∀ f, f ∈ kstack :: free ↔ f ∈ kstack :: rest) ↔ ∀ f ∈ rest, f ∈ free := by
  simp only [mem_cons]
  constructor
  · intro same f inside
    refine ((same f).mpr (.inr inside)).resolve_left ?_
    rintro rfl
    exact once inside
  · exact fun longer f => or_congr_right ⟨shorter f, longer f⟩

theorem fork_settled {slot : Bool} {layout : Page → Page} {pgdir : Nat} (sound : Sound kernel m) :
    Ensures (fork kernel slot layout pgdir sz) m
      (fun result m' => result = none →
        ((∀ f, f ∈ m'.freelist ↔ f ∈ m.freelist) ↔
          ¬(slot = true ∧ Leaks (m.freelist.length - 1) (pages sz))))
      fun _ => True := by
  rw [fork, ensures_bind, allocproc]
  cases slot with
  | false => exact fun _ => iff_of_true (fun _ => Iff.rfl) fun both => Bool.false_ne_true both.1
  | true =>
    simp only [if_true, true_and, ensures_bind]
    cases free : m.freelist with
    | nil =>
      rw [ensures_kalloc_nil free]
      refine fun _ => iff_of_true (fun f => by rw [free]) ?_
      rintro (⟨some, _⟩ | ⟨j, exactly, _⟩)
      · cases some
      · rw [length_nil] at exactly
        omega
    | cons kstack rest =>
      rw [ensures_kalloc_cons free]
      simp only [ensures_bind, ensures_modify, ensures_pure]
      have nodup := sound.once
      rw [free, nodup_cons] at nodup
      have usable : kernel.Usable kstack := sound.usable (by rw [free]; exact .head _)
      have sound' : Sound kernel (({ m with freelist := rest } : Memory).setPage kstack
          (layout (m.page kstack))) := {
        once := nodup.2
        usable := fun inside => sound.usable (by rw [free]; exact .tail _ inside) }
      rw [length_cons, Nat.add_sub_cancel]
      refine (copyuvm_ensures sound').weaken ?_
      change ∀ result m₁, ((_ ∧ rest.length < 65 ∧ _) ∨ ∃ d size, rest.length = size + 1 ∧
        Copied kernel (· ∉ rest) size d sz (fun _ _ => True) result m₁) → _
      rintro result m₁ (⟨rfl, few, empty⟩ | ⟨d, size, length, copied⟩)
      · rw [ensures_bind, ensures_kfree usable]
        intro _
        rw [Memory.put, empty, free_kstack_iff nodup.1 fun _ none => absurd none (not_mem_nil)]
        constructor
        · rintro nothing (⟨some, _⟩ | ⟨j, exactly, _⟩)
          · obtain ⟨f, inside⟩ := exists_mem_of_length_pos some
            exact absurd (nothing f inside) not_mem_nil
          · omega
        · intro kept f inside
          exact absurd (.inl ⟨length_pos_of_mem inside, by omega⟩) kept
      · cases copied with
        | done _ _ _ => exact fun isNone => by cases isNone
        | @refused k _ _ inside spent freed =>
          rw [ensures_bind, ensures_kfree usable]
          intro _
          rw [Memory.put, free_kstack_iff nodup.1 fun f isFree =>
            not_not.mp ((freed.free f).mp isFree)]
          exact iff_of_true (fun f inside => (freed.free f).mpr (not_not.mpr inside))
            (not_leaks_of_refused (k := k) (by omega) _)
        | @lost k f _ _ inside table spent open_ freed =>
          rw [ensures_bind, ensures_kfree usable]
          intro _
          rw [Memory.put, free_kstack_iff nodup.1 fun f isFree =>
            not_not.mp fun used => (freed.free f).mp isFree (.inl used)]
          refine iff_of_false (fun all => ?_)
            (not_not.mpr (.inr ⟨k / 1024, by omega, by omega⟩))
          exact (freed.free f).mp (all f (not_not.mp open_)) (.inr rfl)

/-- When a failed call gives all its pages back. -/
theorem perform_restores_iff {call : Call} {trace : List Event} (sound : Sound kernel m)
    (failed : call.perform kernel (m, []) = .ok (false, m', trace)) :
    (∀ f, f ∈ m'.freelist ↔ f ∈ m.freelist) ↔ ¬call.Leaks m.freelist.length := by
  have isNone : ∀ {A : Type} {result : Option A}, result.isSome = false → result = none :=
    fun {_ result} none => by cases result with
      | none => rfl
      | some _ => cases none
  have ensures : Ensures (call.perform kernel) (m, [])
      (fun result s => result = false →
        ((∀ f, f ∈ s.1.freelist ↔ f ∈ m.freelist) ↔ ¬call.Leaks m.freelist.length))
      fun _ => True := by
    cases call with
    | fork slot layout pgdir sz =>
      rw [Call.perform, ensures_bind, ensures_zoom]
      exact (fork_settled sound).weaken fun _ _ exact_ none => exact_ (isNone none)
    | exec pgdir file argv =>
      exact (exec_settled sound).seq fun _ _ exact_ none => (exact_ (isNone none)).2
  exact ensures.of_ok failed rfl

end

def zeroedMemory (freelist : List Nat) : Memory where
  page := fun _ _ => 0
  freelist := freelist

/-- One free page: `fork` has no page directory for the child and gives the stack back. -/
theorem perform_restores_onePage :
    ∃ m', (Call.fork true id 0 0).perform smallKernel (zeroedMemory [0x200], []) =
        .ok (false, m', []) ∧
      ∀ f, f ∈ m'.freelist ↔ f ∈ [0x200] := by
  have sound : Sound smallKernel (zeroedMemory [0x200]) := {
    once := nodup_singleton _
    usable := by
      intro f free
      obtain rfl := mem_singleton.mp free
      exact ⟨by decide, by decide⟩ }
  obtain ⟨m', failed⟩ : ∃ m', (Call.fork true id 0 0).perform smallKernel
      (zeroedMemory [0x200], []) = .ok (false, m', []) := ⟨_, rfl⟩
  refine ⟨m', failed, (perform_restores_iff sound failed).mpr ?_⟩
  rintro ⟨_, ⟨some, _⟩ | ⟨j, exactly, _⟩⟩
  · cases some
  · change 0 = _ at exactly
    omega

/-- Two free pages: the second one becomes the child's directory, there is no page table for the
kernel's mappings, and the directory is never freed. -/
theorem fork_keeps_directory :
    ∃ m', (Call.fork true id 0 0).perform smallKernel (zeroedMemory [0x200, 0x201], []) =
        .ok (false, m', []) ∧
      0x201 ∈ (zeroedMemory [0x200, 0x201]).freelist ∧ 0x201 ∉ m'.freelist := by
  refine ⟨_, rfl, by decide, ?_⟩
  change 0x201 ∉ [0x200]
  decide

end StraceXv6.Kernel.Vm
