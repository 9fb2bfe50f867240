import StraceXv6.Kernel.Vm.Copyout

namespace StraceXv6.Kernel.Vm

open UInt32 List Data Data.Command

instance : DecidablePred KernelTable := fun i => inferInstanceAs (Decidable
  (512 ≤ i ∧ i < 568 ∨ 1016 ≤ i ∧ i < 1024))

/-- What becomes of the arguments: they fit on the stack page with the last of them at `sp`, they
are refused, or one is placed where there is no page table. -/
inductive Placement
  | fits (sp : UInt32)
  | refused
  | wild
  deriving DecidableEq

def placement (stack : Nat) : Nat → UInt32 → List Argument → Placement
  | _, sp, [] => .fits sp
  | argc, sp, argument :: rest =>
    if maxarg ≤ argc then .refused
    else if vpn (argument.place sp) = stack then
      placement stack (argc + 1) (argument.place sp) rest
    else if kernbase ≤ argument.place sp ∧
        ¬KernelTable (vpn (argument.place sp) / nptentries) then .wild
    else .refused

/-- The strings, and the words that `exec` puts below them, when the image has `sz` bytes. -/
@[irreducible] def stackPlacement (sz : UInt32) (argv : List Argument) : Placement :=
  if kernbase ≤ pgroundup sz + 2 * 4096 then .refused
  else match placement (pages sz + 1) 0 (pgroundup sz + 2 * 4096) argv with
    | .fits sp =>
      let sp' := sp - (3 + UInt32.ofNat argv.length + 1) * 4
      if vpn sp' = pages sz + 1 then .fits sp' else .refused
    | .refused => .refused
    | .wild => .wild

structure Stacked (m : Memory) (d stack : Nat) : Prop where
  inside : stack < userPages
  positive : 0 < stack
  accessible : Accessible (m.entry d stack)
  guarded : ¬Accessible (m.entry d (stack - 1))
  low : ∀ {v}, v < stack → (m.table d (v / nptentries)).isSome = true
  high : ∀ {v}, userPages ≤ v →
    ((m.table d (v / nptentries)).isSome = true ↔ KernelTable (v / nptentries))
  supervised : Supervised m d

section

variable {kernel : Image} {reserved : Nat → Prop} {m m' : Memory} {d stack : Nat}
  {fails : Panic → Prop}

theorem Stacked.rewritten (stacked : Stacked m d stack) (rewritten : Rewritten d m m') :
    Stacked m' d stack where
  inside := stacked.inside
  positive := stacked.positive
  accessible := by
    rw [rewritten.entries]
    exact stacked.accessible
  guarded := by
    rw [rewritten.entries]
    exact stacked.guarded
  low := by
    rw [rewritten.tables]
    exact stacked.low
  high := by
    rw [rewritten.tables]
    exact stacked.high
  supervised := by
    rw [Supervised, rewritten.entries]
    exact stacked.supervised

variable {bytes : List UInt8} {va sp : UInt32} {argument : Argument} {argc size : Nat}
  {argv : List Argument}

theorem Stacked.copyout (stacked : Stacked m d stack) (directory : Directory kernel reserved m d)
    (small : bytes.length < 2 ^ 32) :
    Ensures (copyout d va bytes) m
      (fun ok m' => Rewritten d m m' ∧ Tabled m d va bytes.length ∧
        (ok = true ↔ ∀ i < bytes.length, Accessible (m.entry d (vpn (address va i)))))
      fun _ => ¬Tabled m d va bytes.length := by
  refine ((copyout_rewrites directory stacked.supervised).and
    (copyout_ensures (directory.unaliased stacked.supervised) va small)).mono ?_ ?_
  · rintro ok m' ⟨rewritten, copied, tabled⟩
    exact ⟨rewritten, tabled, copied.result⟩
  · exact fun _ both => both.2

theorem copyout_fits (stacked : Stacked m d stack) (directory : Directory kernel reserved m d)
    (here : vpn va = stack) (fits : va.toNat % pgsize + bytes.length ≤ pgsize) :
    Ensures (copyout d va bytes) m (fun ok m' => ok = true ∧ Rewritten d m m') fails := by
  change _ % 4096 + _ ≤ 4096 at fits
  have accessible : ∀ i < bytes.length, Accessible (m.entry d (vpn (address va i))) := by
    intro i less
    have page : vpn (address va i) = stack := by
      have bound := va.toNat_lt
      change va.toNat / 4096 = _ at here
      change (address va i).toNat / 4096 = _
      rw [toNat_address]
      omega
    rw [page]
    exact stacked.accessible
  refine (stacked.copyout directory (by omega)).mono ?_ ?_
  · exact fun _ _ copied => ⟨copied.2.2.mpr accessible, copied.1⟩
  · exact fun _ missing => absurd (fun i less _ =>
      Memory.table_isSome_of_present (accessible i less).1) missing

theorem copyout_refused (stacked : Stacked m d stack) (directory : Directory kernel reserved m d)
    (below : vpn va < stack) (some : 0 < bytes.length) (small : bytes.length < 2 ^ 32)
    (reaches : pgsize * (stack - 1) < va.toNat + bytes.length) :
    Ensures (copyout d va bytes) m (fun ok m' => ok = false ∧ Rewritten d m m') fails := by
  have inside : stack < 0x80000 := stacked.inside
  change va.toNat / 4096 < _ at below
  change 4096 * (stack - 1) < _ at reaches
  have page : ∀ {i}, va.toNat + i < 4096 * stack → 4096 * (stack - 1) ≤ va.toNat + i →
      vpn (address va i) = stack - 1 := by
    intro i upper lower
    change (address va i).toNat / 4096 = _
    rw [toNat_address]
    omega
  -- the first of the bytes that would be on the guard page
  have first : 4096 * (stack - 1) - va.toNat < bytes.length := by omega
  have refuses : ¬Accessible (m.entry d (vpn (address va (4096 * (stack - 1) - va.toNat)))) := by
    rw [page (by omega) (by omega)]
    exact stacked.guarded
  refine (stacked.copyout directory small).mono ?_ ?_
  · rintro ok m' ⟨rewritten, _, copied⟩
    exact ⟨Bool.eq_false_iff.mpr fun isOk => refuses (copied.mp isOk _ first), rewritten⟩
  · refine fun _ missing => absurd (fun i less reached => stacked.low ?_) missing
    have before : i ≤ 4096 * (stack - 1) - va.toNat := by
      by_contra past
      exact refuses (reached _ (Nat.lt_of_not_le past))
    change (address va i).toNat / 4096 < _
    rw [toNat_address]
    omega

theorem copyout_above (stacked : Stacked m d stack) (directory : Directory kernel reserved m d)
    (above : kernbase ≤ va) (some : 0 < bytes.length) (small : bytes.length < 2 ^ 32) :
    Ensures (copyout d va bytes) m
      (fun ok m' => ok = false ∧ Rewritten d m m' ∧ KernelTable (vpn va / nptentries))
      fun _ => ¬KernelTable (vpn va / nptentries) := by
  have high : userPages ≤ vpn va := by
    rw [le_iff_toNat_le] at above
    change 0x80000000 ≤ va.toNat at above
    change 0x80000 ≤ va.toNat / 4096
    omega
  have start : address va 0 = va := add_zero va
  have refuses : ¬Accessible (m.entry d (vpn (address va 0))) := by
    rw [start]
    exact fun accessible => accessible.2 (stacked.supervised _ high)
  rw [← stacked.high high]
  refine (stacked.copyout directory small).mono ?_ ?_
  · rintro ok m' ⟨rewritten, tabled, copied⟩
    refine ⟨Bool.eq_false_iff.mpr fun isOk => refuses (copied.mp isOk 0 some), rewritten, ?_⟩
    rw [← start]
    exact tabled 0 some fun j less => absurd less (Nat.not_lt_zero j)
  · refine fun _ missing isSome => missing fun i _ reached => ?_
    cases i with
    | zero =>
      rw [start]
      exact isSome
    | succ i => exact absurd (reached 0 (Nat.succ_pos i)) refuses

/-- The stack pointer goes down by the length of the string, to a multiple of 4; if there is not so
much below it, it wraps around to an address above `KERNBASE`. -/
theorem Argument.toNat_place (argument : Argument) (small : sp.toNat < 2 ^ 31) :
    (argument.place sp).toNat =
      if argument.bytes.length + 1 ≤ sp.toNat then
        4 * ((sp.toNat - (argument.bytes.length + 1)) / 4)
      else 4 * ((2 ^ 32 + sp.toNat - (argument.bytes.length + 1)) / 4) := by
  have below := argument.below
  change argument.bytes.length < 0x80000000 at below
  have length : (UInt32.ofNat argument.bytes.length + 1).toNat = argument.bytes.length + 1 := by
    rw [UInt32.toNat_add, UInt32.toNat_ofNat']
    change (_ % 2 ^ 32 + 1) % 2 ^ 32 = _
    omega
  have masked : (argument.place sp).toNat =
      2 ^ 2 * ((sp - (UInt32.ofNat argument.bytes.length + 1)).toNat / 2 ^ 2) := by
    rw [place, UInt32.toNat_and]
    exact and_mask (k := 2) (UInt32.toNat_lt _) (by decide)
  rw [masked, UInt32.toNat_sub, length]
  split
  next => omega
  next => omega

structure OnStack (stack : Nat) (sp : UInt32) : Prop where
  inside : stack < userPages
  positive : 0 < stack
  lower : pgsize * stack ≤ sp.toNat
  upper : sp.toNat ≤ pgsize * (stack + 1)
  aligned : sp.toNat % 4 = 0
  small : sp < kernbase

theorem OnStack.toNat_lt (onStack : OnStack stack sp) : sp.toNat < 2 ^ 31 :=
  lt_iff_toNat_lt.mp onStack.small

theorem OnStack.place (onStack : OnStack stack sp) (here : vpn (argument.place sp) = stack) :
    OnStack stack (argument.place sp) ∧
      (argument.place sp).toNat % pgsize + (argument.bytes ++ [0]).length ≤ pgsize := by
  have value := argument.toNat_place onStack.toNat_lt
  have below := argument.below
  have inside : stack < 0x80000 := onStack.inside
  have upper : sp.toNat ≤ 4096 * (stack + 1) := onStack.upper
  change argument.bytes.length < 0x80000000 at below
  change (argument.place sp).toNat / 4096 = stack at here
  have room : argument.bytes.length + 1 ≤ sp.toNat := by
    by_contra wraps
    rw [if_neg wraps] at value
    omega
  rw [if_pos room] at value
  have less : (argument.place sp).toNat + (argument.bytes.length + 1) ≤ 4096 * (stack + 1) := by
    omega
  refine ⟨⟨onStack.inside, onStack.positive, ?_, ?_, ?_, ?_⟩, ?_⟩
  · change 4096 * stack ≤ _
    omega
  · change _ ≤ 4096 * (stack + 1)
    omega
  · omega
  · rw [lt_iff_toNat_lt]
    change _ < 0x80000000
    have small := onStack.toNat_lt
    omega
  · rw [length_append, length_singleton]
    change _ % 4096 + _ ≤ 4096
    omega

theorem OnStack.below (onStack : OnStack stack sp) (elsewhere : vpn (argument.place sp) ≠ stack)
    (user : ¬kernbase ≤ argument.place sp) :
    vpn (argument.place sp) < stack ∧
      pgsize * (stack - 1) < (argument.place sp).toNat + (argument.bytes ++ [0]).length := by
  have value := argument.toNat_place onStack.toNat_lt
  have below := argument.below
  have positive := onStack.positive
  have aligned := onStack.aligned
  have lower : 4096 * stack ≤ sp.toNat := onStack.lower
  have upper : sp.toNat ≤ 4096 * (stack + 1) := onStack.upper
  change argument.bytes.length < 0x80000000 at below
  change (argument.place sp).toNat / 4096 ≠ stack at elsewhere
  rw [le_iff_toNat_le] at user
  change ¬0x80000000 ≤ _ at user
  have room : argument.bytes.length + 1 ≤ sp.toNat := by
    by_contra wraps
    rw [if_neg wraps] at value
    omega
  rw [if_pos room] at value
  rw [length_append, length_singleton]
  change _ / 4096 < stack ∧ 4096 * (stack - 1) < _
  omega

theorem placement_fits {sp' : UInt32} (onStack : OnStack stack sp)
    (fits : placement stack argc sp argv = .fits sp') :
    OnStack stack sp' ∧ (argv = [] ∨ argc + argv.length ≤ maxarg) := by
  induction argv generalizing argc sp with
  | nil =>
    obtain rfl := Placement.fits.inj fits
    exact ⟨onStack, .inl rfl⟩
  | cons argument rest induction =>
    rw [placement] at fits
    split_ifs at fits with many here wild
    obtain ⟨placed, few⟩ := induction (onStack.place here).1 fits
    refine ⟨placed, .inr ?_⟩
    rw [length_cons]
    rcases few with rfl | few
    · rw [length_nil]
      omega
    · omega

/-- What `pushArguments` does, by where the strings go. -/
theorem pushArguments_placement (stacked : Stacked m d stack)
    (directory : Directory kernel reserved m d) (onStack : OnStack stack sp) :
    Ensures (pushArguments d argc sp argv) m
      (fun result m' => Rewritten d m m' ∧
        match placement stack argc sp argv with
        | .fits sp' => ∃ pointers, result = some (sp', pointers) ∧ pointers.length = argv.length
        | .refused => result = none
        | .wild => False)
      fun _ => placement stack argc sp argv = .wild := by
  induction argv generalizing argc sp m with
  | nil => exact ⟨.refl d m, [], rfl, rfl⟩
  | cons argument rest induction =>
    have below := argument.below
    change _ < 0x80000000 at below
    have length : (argument.bytes ++ [0]).length = argument.bytes.length + 1 := length_append
    rw [pushArguments, placement]
    by_cases many : maxarg ≤ argc
    · rw [if_pos many, if_pos many]
      exact ⟨.refl d m, rfl⟩
    rw [if_neg many, if_neg many]
    by_cases here : vpn (argument.place sp) = stack
    · obtain ⟨placed, fits⟩ := onStack.place here
      rw [if_pos here]
      refine (copyout_fits stacked directory here fits).seq ?_
      rintro _ m₁ ⟨rfl, rewritten⟩
      refine (induction (stacked.rewritten rewritten) (rewritten.directory directory)
        placed).seq ?_
      rintro result m₂ ⟨more, outcome⟩
      cases found : placement stack (argc + 1) (argument.place sp) rest with
      | fits sp' =>
        rw [found] at outcome
        obtain ⟨pointers, rfl, length⟩ := outcome
        exact ⟨rewritten.trans more, _, rfl, by rw [length_cons, length, length_cons]⟩
      | refused =>
        rw [found] at outcome
        subst outcome
        exact ⟨rewritten.trans more, rfl⟩
      | wild =>
        rw [found] at outcome
        exact outcome.elim
    rw [if_neg here]
    by_cases above : kernbase ≤ argument.place sp
    · refine (copyout_above stacked directory above (by omega) (by omega)).bind ?_ ?_
      · rintro _ m₁ ⟨rfl, rewritten, table⟩
        rw [if_neg Bool.false_ne_true, if_neg fun both => both.2 table]
        exact ⟨rewritten, rfl⟩
      · exact fun _ missing => if_pos ⟨above, missing⟩
    · obtain ⟨below, reaches⟩ := onStack.below here above
      rw [if_neg fun both => above both.1]
      refine (copyout_refused stacked directory below (by omega) (by omega) reaches).seq ?_
      rintro _ m₁ ⟨rfl, rewritten⟩
      exact ⟨rewritten, rfl⟩

theorem Populated.stacked {k : Nat} {base : UInt32} {before : Memory}
    (populated : Populated kernel reserved size (k + 2) m d) (inside : k + 2 < userPages)
    (grown : Grown kernel reserved d k 2 before m) (isGuard : vpn base = k)
    (guarded : Guarded kernel reserved d base m m') : Stacked m' d (k + 1) where
  inside := by omega
  positive := Nat.succ_pos k
  accessible := by
    obtain ⟨f, small, entry, _⟩ := grown.mapped (Nat.le_succ k) (by omega)
    rw [guarded.entries, isGuard, Function.update_of_ne (Nat.succ_ne_self k), entry]
    exact accessible_entry small
  guarded := by
    intro accessible
    have cleared : ~~~pteU &&& pteU = 0 := by decide
    apply accessible.2
    rw [Nat.add_sub_cancel, guarded.entries, isGuard, Function.update_self, UInt32.and_assoc,
      cleared, UInt32.and_zero]
  low := by
    intro v below
    rw [guarded.tables, populated.tables]
    right
    change 1024 * (v / 1024) < k + 2
    omega
  high := by
    intro v above
    rw [guarded.tables, populated.tables]
    refine ⟨fun either => either.resolve_right ?_, .inl⟩
    change k + 2 < 0x80000 at inside
    change 0x80000 ≤ v at above
    change ¬1024 * (v / 1024) < k + 2
    omega
  supervised := guarded.supervised fun _ => populated.supervisor

theorem length_ustack (sp : UInt32) (pointers : List UInt32) :
    ((ustack sp pointers).flatMap wordBytes).length = 4 * (pointers.length + 4) := by
  have each : ∀ words : List UInt32, (words.flatMap wordBytes).length = 4 * words.length := by
    intro words
    induction words with
    | nil => rfl
    | cons word rest induction =>
      rw [flatMap_cons, length_append, induction, length_cons]
      change 4 + 4 * rest.length = _
      omega
  rw [each, ustack, length_append, length_append]
  change 4 * (3 + pointers.length + 1) = _
  omega

theorem toNat_sub_ustack (sp : UInt32) {n : Nat} (few : n ≤ 32) (low : 4096 ≤ sp.toNat) :
    (sp - (3 + UInt32.ofNat n + 1) * 4).toNat = sp.toNat - 4 * (n + 4) := by
  have words : ((3 + UInt32.ofNat n + 1) * 4).toNat = 4 * (n + 4) := by
    rw [UInt32.toNat_mul, UInt32.toNat_add, UInt32.toNat_add, UInt32.toNat_ofNat']
    change ((3 + _ % 2 ^ 32) % 2 ^ 32 + 1) % 2 ^ 32 * 4 % 2 ^ 32 = _
    omega
  have bound := sp.toNat_lt
  rw [UInt32.toNat_sub, words]
  omega

theorem copyout_ustack (stacked : Stacked m d stack) (directory : Directory kernel reserved m d)
    {pointers : List UInt32} (onStack : OnStack stack sp) (few : pointers.length ≤ maxarg) :
    Ensures (copyout d (sp - (3 + UInt32.ofNat pointers.length + 1) * 4)
        ((ustack sp pointers).flatMap wordBytes)) m
      (fun ok m' =>
        (ok = true ↔ vpn (sp - (3 + UInt32.ofNat pointers.length + 1) * 4) = stack) ∧
          Rewritten d m m')
      fails := by
  have length := length_ustack sp pointers
  have positive := onStack.positive
  have lower : 4096 * stack ≤ sp.toNat := onStack.lower
  have upper : sp.toNat ≤ 4096 * (stack + 1) := onStack.upper
  change _ ≤ 32 at few
  have value := toNat_sub_ustack sp (n := pointers.length) (by omega) (by omega)
  generalize sp - (3 + UInt32.ofNat pointers.length + 1) * 4 = va at value
  by_cases here : vpn va = stack
  · refine (copyout_fits stacked directory here ?_).weaken ?_
    · change va.toNat / 4096 = stack at here
      change va.toNat % 4096 + _ ≤ 4096
      omega
    · rintro _ m' ⟨rfl, rewritten⟩
      exact ⟨iff_of_true rfl here, rewritten⟩
  · refine (copyout_refused stacked directory ?_ ?_ ?_ ?_).weaken ?_
    · change va.toNat / 4096 ≠ stack at here
      change va.toNat / 4096 < stack
      omega
    · omega
    · omega
    · change 4096 * (stack - 1) < _
      omega
    · rintro _ m' ⟨rfl, rewritten⟩
      exact ⟨iff_of_false Bool.false_ne_true here, rewritten⟩

structure Kept (kernel : Image) (reserved : Nat → Prop) (d : Nat) (m m' : Memory) : Prop where
  directory : Directory kernel reserved m' d
  shorter : m'.freelist ⊆ m.freelist
  pages : ∀ g, reserved g → m'.page g = m.page g

theorem Kept.rewritten {m'' : Memory} (kept : Kept kernel reserved d m m')
    (rewritten : Rewritten d m' m'') : Kept kernel reserved d m m'' where
  directory := rewritten.directory kept.directory
  shorter := rewritten.list ▸ kept.shorter
  pages := fun g isKept =>
    (rewritten.page_of_reserved kept.directory isKept).trans (kept.pages g isKept)

theorem pushStack_placement {sz : UInt32}
    (populated : Populated kernel reserved size (Vm.pages sz) m d) (small : sz < kernbase)
    (room : 64 + withStack sz + (withStack sz + 1023) / 1024 ≤ size) :
    Ensures (pushStack kernel d sz argv) m
      (fun result m' => Kept kernel reserved d m m' ∧
        match stackPlacement sz argv with
        | .fits sp => ∃ newsz, result = some (newsz, sp)
        | .refused => result = none
        | .wild => False)
      fun _ => stackPlacement sz argv = .wild := by
  have ordered := (pages_stack small).1
  have same := (pages_stack small).2.1
  have more := (pages_stack small).2.2
  have sum : (pgroundup sz + 2 * 4096).toNat = 4096 * (Vm.pages sz + 2) := toNat_stackTop small
  unfold pushStack stackPlacement
  rw [withStack] at room
  rw [ensures_bind]
  generalize pgroundup sz + 2 * 4096 = newsz at ordered more sum room ⊢
  generalize pgroundup sz = base at ordered same ⊢
  have spent := populated.spent
  by_cases above : kernbase ≤ newsz
  · rw [Vm.allocuvm, if_pos above, if_pos above]
    exact ⟨⟨populated.directory, fun _ => id, fun _ _ => rfl⟩, rfl⟩
  rw [if_neg above] at room ⊢
  have limit := UInt32.not_le.mp above
  have inside := pages_le (UInt32.le_of_lt limit)
  rw [← same] at populated
  refine (allocuvm_ensures limit ordered (fun above below =>
    populated.unmapped above (below.trans_le inside)) populated.directory).weaken ?_
  intro result m₁ allocated
  obtain ⟨rfl, populated₁, grown⟩ := populated.allocated inside (by omega) (by omega) allocated
  have two : Vm.pages result - Vm.pages base = 2 := by omega
  rw [more] at populated₁
  rw [two, same] at grown
  have below : result.toNat < 0x80000000 := lt_iff_toNat_lt.mp limit
  have room' : Vm.pages sz + 2 < userPages := by
    change _ < 0x80000
    omega
  have nonzero : result ≠ 0 := by
    intro zero
    rw [zero] at sum
    change 0 = _ at sum
    omega
  have start : (result - 2 * 4096).toNat = pgsize * Vm.pages sz := by
    rw [UInt32.toNat_sub, sum]
    change (2 ^ 32 - 8192 + 4096 * (Vm.pages sz + 2)) % 2 ^ 32 = 4096 * Vm.pages sz
    omega
  rw [if_neg nonzero, ensures_bind]
  generalize result - 2 * 4096 = guard at start ⊢
  have isGuard := vpn_of_toNat start
  refine (clearpteu_ensures populated₁.directory fun missing => ?_).weaken ?_
  · have isSome : (m₁.table d (Vm.pages sz / nptentries)).isSome = true :=
      (populated₁.tables _).mpr (.inr (by change 1024 * (_ / 1024) < _; omega))
    rw [isGuard] at missing
    rw [missing] at isSome
    cases isSome
  intro _ m₂ guarded
  have stacked := populated₁.stacked room' grown isGuard guarded
  have kept : Kept kernel reserved d m m₂ := {
    directory := guarded.directory
    shorter := guarded.list ▸ grown.extended.shorter
    pages := fun g isKept => by
      rw [guarded.kept fun i isTable => populated₁.directory.apart (.table i) isTable isKept,
        grown.extended.page_of_reserved populated.directory isKept] }
  have onStack : OnStack (Vm.pages sz + 1) result := {
    inside := stacked.inside
    positive := stacked.positive
    lower := by
      change 4096 * (Vm.pages sz + 1) ≤ _
      omega
    upper := Nat.le_of_eq sum
    aligned := by omega
    small := limit }
  refine (pushArguments_placement stacked guarded.directory onStack).bind ?_
    fun _ wild => by rw [wild]
  rintro pushed m₃ ⟨rewritten, outcome⟩
  cases found : placement (Vm.pages sz + 1) 0 result argv with
  | refused =>
    rw [found] at outcome
    subst outcome
    exact ⟨kept.rewritten rewritten, rfl⟩
  | wild =>
    rw [found] at outcome
    exact outcome.elim
  | fits sp =>
    rw [found] at outcome
    obtain ⟨pointers, rfl, length⟩ := outcome
    obtain ⟨onStack', few⟩ := placement_fits onStack found
    have few' : pointers.length ≤ maxarg := by
      rw [length]
      rcases few with rfl | few
      · exact Nat.zero_le _
      · omega
    refine (copyout_ustack (stacked.rewritten rewritten) (rewritten.directory guarded.directory)
      onStack' few').seq ?_
    rintro copied m₄ ⟨fits, rewritten'⟩
    have final := (kept.rewritten rewritten).rewritten rewritten'
    rw [length] at fits ⊢
    cases copied with
    | true =>
      rw [if_pos rfl]
      refine ⟨final, ?_⟩
      dsimp only
      rw [if_pos (fits.mp rfl)]
      exact ⟨result, rfl⟩
    | false =>
      rw [if_neg Bool.false_ne_true]
      refine ⟨final, ?_⟩
      dsimp only
      rw [if_neg fun here => absurd (fits.mpr here) Bool.false_ne_true]

end

end StraceXv6.Kernel.Vm
