import StraceXv6.Kernel.Vm.ExecSafety

namespace StraceXv6.Kernel.Vm

open Data Data.Command

/-! What a new program finds on its stack. -/

def Shows (load : UInt32 → Option UInt8) (va : UInt32) (bytes : List UInt8) : Prop :=
  ∀ i < bytes.length, load (address va i) = bytes[i]?

/-- The strings lie one below the other, between `floor` and `top`, down to `sp`. -/
def Pushed (load : UInt32 → Option UInt8) (floor : Nat) :
    Nat → List UInt32 → List Argument → Nat → Prop
  | top, [], [], sp => sp = top
  | top, pointer :: pointers, argument :: argv, sp =>
    floor ≤ pointer.toNat ∧ pointer.toNat + (argument.bytes ++ [0]).length ≤ top ∧
      Shows load pointer (argument.bytes ++ [0]) ∧ Pushed load floor pointer.toNat pointers argv sp
  | _, _, _, _ => False

/-- The page below `sz` is the stack, with the strings, the pointers to them and the three words
before these; user code cannot use the page below it. -/
def Decodes (m : Memory) (d : Nat) (sz esp : UInt32) (argv : List Argument) : Prop :=
  ∃ stack pointers sp, sz.toNat = pgsize * (stack + 1) ∧
    0 < stack ∧ m.entry d (stack - 1) &&& pteU = 0 ∧
    Pushed (m.load d) (pgsize * stack) sz.toNat pointers argv sp ∧
    pgsize * stack ≤ esp.toNat ∧ esp.toNat + 4 * (argv.length + 4) ≤ sp ∧
    Shows (m.load d) esp
      (([0xFFFFFFFF, UInt32.ofNat argv.length, esp + 12] ++ pointers ++ [0]).flatMap wordBytes)

structure Guards (kernel : Image) (reserved : Nat → Prop) (stack : Nat) (m : Memory) (d : Nat) :
    Prop where
  directory : Directory kernel reserved m d
  supervised : Supervised m d
  positive : 0 < stack
  inside : stack + 1 < userPages
  guarded : m.entry d (stack - 1) &&& pteU = 0

def Frames (d start stop : Nat) (m m' : Memory) : Prop :=
  ∀ a, vpn a < userPages → present (m.entry d (vpn a)) → a.toNat < start ∨ stop ≤ a.toNat →
    m'.byte d a = m.byte d a

section

variable {kernel : Image} {reserved : Nat → Prop} {m m' m'' : Memory} {d stack : Nat}

theorem Guards.rewritten (guards : Guards kernel reserved stack m d)
    (rewritten : Rewritten d m m') : Guards kernel reserved stack m' d where
  directory := rewritten.directory guards.directory
  supervised := by
    rw [Supervised, rewritten.entries]
    exact guards.supervised
  positive := guards.positive
  inside := guards.inside
  guarded := by
    rw [rewritten.entries]
    exact guards.guarded

variable {start stop oldpgdir : Nat} {bytes : List UInt8} {va sz : UInt32} {argv : List Argument}
  {initial : Memory} {elf : Elfhdr}

theorem Frames.trans {middle : Nat} (first : Frames d middle stop m m')
    (second : Frames d start middle m' m'') (entries : m'.entry d = m.entry d)
    (low : start ≤ middle) (high : middle ≤ stop) : Frames d start stop m m'' := by
  intro a user mapped outside
  rw [second a user (entries ▸ mapped) (by omega), first a user mapped (by omega)]

theorem Memory.load_congr {a : UInt32} (entry : m'.entry d (vpn a) = m.entry d (vpn a))
    (content : present (m.entry d (vpn a)) → m'.byte d a = m.byte d a) :
    m'.load d a = m.load d a := by
  rw [load, load, entry]
  split
  next accessible => rw [content accessible.1]
  next => rfl

theorem Shows.frame (shows_ : Shows (m.load d) va bytes) (supervised : Supervised m d)
    (frames : Frames d start stop m m') (entries : m'.entry d = m.entry d)
    (small : va.toNat + bytes.length < 2 ^ 32)
    (outside : va.toNat + bytes.length ≤ start ∨ stop ≤ va.toNat) : Shows (m'.load d) va bytes := by
  intro i less
  rw [← shows_ i less, Memory.load, Memory.load, entries]
  split
  next accessible =>
    rw [frames _ (supervised.lt accessible) accessible.1 (by rw [toNat_address]; omega)]
  next => rfl

theorem Pushed.frame {floor top sp : Nat} {pointers : List UInt32}
    (pushed : Pushed (m.load d) floor top pointers argv sp) (supervised : Supervised m d)
    (frames : Frames d start stop m m') (entries : m'.entry d = m.entry d) (small : top < 2 ^ 32)
    (below : stop ≤ sp) : Pushed (m'.load d) floor top pointers argv sp ∧ sp ≤ top := by
  induction pointers generalizing top argv with
  | nil =>
    cases argv with
    | nil => exact ⟨pushed, Nat.le_of_eq pushed⟩
    | cons => exact pushed.elim
  | cons pointer pointers induction =>
    cases argv with
    | nil => exact pushed.elim
    | cons argument argv =>
      obtain ⟨above, fits, shows_, rest⟩ := pushed
      obtain ⟨rest', least⟩ := induction rest (by omega)
      exact ⟨⟨above, fits, shows_.frame supervised frames entries (by omega) (by omega), rest'⟩,
        by omega⟩

/-- Bytes that are to end at the top of the stack are written there, or they would come to the
guard page. -/
theorem copyout_onStack (guards : Guards kernel reserved stack m d)
    (small : bytes.length < 2 ^ 32) (some_ : 0 < bytes.length)
    (ends : (va.toNat + bytes.length) % 2 ^ 32 = stop) (low : pgsize * stack < stop + 4)
    (high : stop ≤ pgsize * (stack + 1)) :
    Ensures (copyout d va bytes) m
      (fun ok m' => Rewritten d m m' ∧ (ok = true →
        pgsize * stack ≤ va.toNat ∧ va.toNat + bytes.length = stop ∧ Shows (m'.load d) va bytes ∧
          Frames d va.toNat stop m m'))
      fun _ => True := by
  have unaliased := guards.directory.unaliased guards.supervised
  refine ((copyout_ensures unaliased va small).and
    (copyout_rewrites guards.directory guards.supervised)).mono ?_ fun _ _ => trivial
  rintro ok m' ⟨⟨copied, -⟩, rewritten⟩
  refine ⟨rewritten, fun isOk => ?_⟩
  have accessible := copied.result.mp isOk
  have within : pgsize * stack ≤ va.toNat ∧ va.toNat + bytes.length = stop := by
    by_contra outside
    have positive := guards.positive
    have inside : stack + 1 < 0x80000 := guards.inside
    have bound := va.toNat_lt
    change 4096 * stack < _ at low
    change _ ≤ 4096 * (stack + 1) at high
    change ¬(4096 * stack ≤ _ ∧ _) at outside
    obtain ⟨i, less, here⟩ : ∃ i < bytes.length,
        (va.toNat + i) % 2 ^ 32 = min stop (4096 * stack) - 1 :=
      ⟨(min stop (4096 * stack) - 1 + 2 ^ 32 - va.toNat) % 2 ^ 32, by omega, by omega⟩
    apply (accessible i less).2
    have page : vpn (address va i) = stack - 1 := by
      change (address va i).toNat / 4096 = _
      rw [toNat_address, here]
      omega
    rw [page, guards.guarded]
  refine ⟨within.1, within.2, fun i less => ?_, fun a user mapped outside => ?_⟩
  · rw [Memory.load, copied.entries, if_pos (accessible i less), copied.replaced isOk i less]
  · rw [Memory.byte, Memory.byte, copied.entries]
    refine copied.others isOk _ _ fun i less same => ?_
    have page := guards.directory.frame_inj (guards.supervised.lt (accessible i less))
      (accessible i less).1 user mapped (congrArg Prod.fst same)
    have equal := eq_of_vpn page (congrArg Prod.snd same)
    have value := toNat_address va i
    rw [equal] at value
    have bound := a.toNat_lt
    omega

theorem pushArguments_pushed (guards : Guards kernel reserved stack m d) {argc : Nat}
    {sp : UInt32} (low : pgsize * stack ≤ sp.toNat) (high : sp.toNat ≤ pgsize * (stack + 1))
    (aligned : sp.toNat % 4 = 0) :
    Ensures (pushArguments d argc sp argv) m
      (fun result m' => Rewritten d m m' ∧ ∀ sp' pointers, result = some (sp', pointers) →
        Pushed (m'.load d) (pgsize * stack) sp.toNat pointers argv sp'.toNat ∧
          pgsize * stack ≤ sp'.toNat ∧ sp'.toNat ≤ sp.toNat ∧ sp'.toNat % 4 = 0 ∧
          pointers.length = argv.length ∧ argv.length ≤ maxarg - argc ∧ Frames d sp'.toNat sp.toNat m m')
      fun _ => True := by
  induction argv generalizing argc sp m with
  | nil =>
    refine ⟨.refl d m, ?_⟩
    rintro _ _ ⟨⟩
    exact ⟨rfl, low, Nat.le_refl _, aligned, rfl, Nat.zero_le _, fun _ _ _ _ => rfl⟩
  | cons argument argv induction =>
    have inside : stack + 1 < 0x80000 := guards.inside
    have positive := guards.positive
    change 4096 * stack ≤ _ at low
    change _ ≤ 4096 * (stack + 1) at high
    have length : (argument.bytes ++ [0]).length = argument.bytes.length + 1 := List.length_append
    have below := argument.below
    change _ < 0x80000000 at below
    have place : (argument.place sp).toNat % 4 = 0 ∧ sp.toNat <
        ((argument.place sp).toNat + (argument.bytes ++ [0]).length) % 2 ^ 32 + 4 ∧
        ((argument.place sp).toNat + (argument.bytes ++ [0]).length) % 2 ^ 32 ≤ sp.toNat := by
      rw [argument.toNat_place (by omega), length]
      split <;> omega
    rw [pushArguments]
    split
    next => exact ⟨.refl d m, fun _ _ isSome => by cases isSome⟩
    next few =>
      refine (copyout_onStack guards (by omega) (by omega) rfl
        (by change 4096 * stack < _; omega) (by change _ ≤ 4096 * (stack + 1); omega)).seq ?_
      rintro ok m₁ ⟨rewritten, copied⟩
      cases ok with
      | false => exact ⟨rewritten, fun _ _ isSome => by cases isSome⟩
      | true =>
        obtain ⟨start, ends, shows_, frames⟩ := copied rfl
        have guards₁ := guards.rewritten rewritten
        refine (induction guards₁ start (by change _ ≤ 4096 * (stack + 1); omega) place.1).seq ?_
        rintro pushed m₂ ⟨more, rest⟩
        cases pushed with
        | none =>
          exact ⟨rewritten.trans more, fun _ _ isSome => by cases isSome⟩
        | some pushed =>
          obtain ⟨sp', pointers⟩ := pushed
          obtain ⟨pushed, low', high', aligned', same, many, frames'⟩ := rest sp' pointers rfl
          refine ⟨rewritten.trans more, ?_⟩
          rintro _ _ ⟨⟩
          have inside : (argument.place sp).toNat + (argument.bytes ++ [0]).length ≤ sp.toNat := by
            omega
          refine ⟨⟨start, inside, shows_.frame guards₁.supervised frames' more.entries (by omega)
            (.inr (Nat.le_refl _)), pushed⟩, low', by omega, aligned',
            congrArg (· + 1) same, by rw [List.length_cons]; omega, fun a user mapped outside => ?_⟩
          exact frames.trans frames' rewritten.entries high' (by omega) a user mapped (by omega)

theorem ustack_eq (sp : UInt32) (pointers : List UInt32) : ustack sp pointers =
    [0xFFFFFFFF, UInt32.ofNat pointers.length,
      sp - (3 + UInt32.ofNat pointers.length + 1) * 4 + 12] ++ pointers ++ [0] := by
  have third : sp - (UInt32.ofNat pointers.length + 1) * 4 =
      sp - (3 + UInt32.ofNat pointers.length + 1) * 4 + 12 := by grind
  rw [ustack, third]

/-- A successful `pushStack`: the stack is complete, and the image below it is as it was. -/
theorem pushStack_decodes (held : Held kernel initial (pages sz) m d) (small : sz < kernbase) :
    Ensures (pushStack kernel d sz argv) m
      (fun result m' => ∀ newsz esp, result = some (newsz, esp) →
        newsz = pgroundup sz + 2 * 4096 ∧ Supervised m' d ∧ Decodes m' d newsz esp argv ∧
          (∀ v < pages sz, present (m.entry d v)) ∧
          ∀ a, vpn a < pages sz → m'.load d a = m.load d a)
      fun _ => True := by
  have sum : (pgroundup sz + 2 * 4096).toNat = 4096 * (pages sz + 2) := toNat_stackTop small
  obtain ⟨ordered, same, more⟩ := pages_stack small
  unfold pushStack
  rw [ensures_bind]
  generalize pgroundup sz + 2 * 4096 = top at sum ordered more ⊢
  generalize pgroundup sz = base at ordered same ⊢
  by_cases above : kernbase ≤ top
  · rw [Vm.allocuvm, if_pos above]
    exact fun _ _ isSome => by cases isSome
  have limit := UInt32.not_le.mp above
  have below : top.toNat < 0x80000000 := UInt32.lt_iff_toNat_lt.mp limit
  rw [← same] at held
  refine (held.allocuvm ordered limit).weaken ?_
  rw [same, more]
  rintro result m₁ (⟨rfl, held₁, added⟩ | ⟨rfl, _⟩)
  · split
    next => exact fun _ _ isSome => by cases isSome
    next =>
      obtain ⟨reserved, directory, _⟩ := held₁.settled
      have start : (result - 2 * 4096).toNat = pgsize * pages sz := by
        rw [UInt32.toNat_sub, sum]
        change (2 ^ 32 - 8192 + 4096 * (pages sz + 2)) % 2 ^ 32 = 4096 * pages sz
        omega
      refine (clearpteu_ensures directory fun _ => trivial).seq ?_
      intro _ m₂ guarded
      have entries := guarded.entries
      rw [vpn_of_toNat start] at entries
      have guards : Guards kernel reserved (pages sz + 1) m₂ d := {
        directory := guarded.directory
        supervised := guarded.supervised held₁.supervised
        positive := Nat.succ_pos _
        inside := by
          change _ < 0x80000
          omega
        guarded := by
          have cleared : ~~~pteU &&& pteU = 0 := by decide
          rw [Nat.add_sub_cancel, entries, Function.update_self, UInt32.and_assoc, cleared,
            UInt32.and_zero] }
      refine (pushArguments_pushed guards ?_ ?_ ?_).seq ?_
      · change 4096 * _ ≤ _
        omega
      · exact Nat.le_of_eq sum
      · omega
      rintro pushed m₃ ⟨rewritten, pushes⟩
      cases pushed with
      | none => exact fun _ _ isSome => by cases isSome
      | some pushed =>
        obtain ⟨sp, pointers⟩ := pushed
        obtain ⟨pushed, low, high, aligned, length, few, frames⟩ := pushes sp pointers rfl
        have guards₃ := guards.rewritten rewritten
        have bytes := length_ustack sp pointers
        have words := ustack_eq sp pointers
        change 4096 * (pages sz + 1) ≤ _ at low
        change _ ≤ 32 at few
        have place := toNat_sub_ustack sp (n := pointers.length) (by omega) (by omega)
        dsimp only
        generalize sp - (3 + UInt32.ofNat pointers.length + 1) * 4 = esp at place words ⊢
        refine (copyout_onStack guards₃ ?_ ?_ (?_ : _ = sp.toNat) ?_ ?_).seq ?_
        · omega
        · omega
        · omega
        · change 4096 * _ < _
          omega
        · change _ ≤ 4096 * (_ + 1)
          omega
        rintro ok m₄ ⟨rewritten', copied⟩
        cases ok with
        | false => exact fun _ _ isSome => by cases isSome
        | true =>
          obtain ⟨first, _, shows_, frames'⟩ := copied rfl
          rintro _ _ ⟨⟩
          have guards₄ := guards₃.rewritten rewritten'
          refine ⟨rfl, guards₄.supervised, ⟨pages sz + 1, pointers, sp.toNat, sum, Nat.succ_pos _,
            guards₄.guarded, ?_, first, by omega, length ▸ words ▸ shows_⟩,
            added.full (by omega), fun a inside => ?_⟩
          · exact (pushed.frame guards₃.supervised frames' rewritten'.entries (by omega)
              (Nat.le_refl _)).1
          · have user : vpn a < userPages := by
              have inside' : pages sz + 2 < 0x80000 := guards.inside
              change _ < 0x80000
              omega
            have same₂ : m₂.entry d (vpn a) = m.entry d (vpn a) := by
              rw [entries, Function.update_of_ne (Nat.ne_of_lt inside), added.entries inside]
            have same₄ : m₄.entry d = m₂.entry d := rewritten'.entries.trans rewritten.entries
            refine Memory.load_congr ((congrFun same₄ _).trans same₂) fun mapped => ?_
            have mapped₂ : present (m₂.entry d (vpn a)) := by
              rw [same₂]
              exact mapped
            have before : a.toNat < esp.toNat := by
              change a.toNat / 4096 < _ at inside
              change 4096 * _ ≤ _ at first
              omega
            rw [frames' a user (rewritten.entries ▸ mapped₂) (.inl before),
              frames a user mapped₂ (.inl (by omega)), Memory.byte, Memory.byte, same₂,
              guarded.kept, added.content inside mapped]
            intro i isTable
            have isPage := m₁.holds_page user (added.entries inside ▸ mapped)
            rw [added.entries inside] at isPage
            exact Holder.noConfusion (directory.alone (.table i) (.page _) isTable isPage)
  · rw [if_pos rfl]
    exact fun _ _ isSome => by cases isSome

/-- The rest of a successful `exec`, which frees the caller's memory. -/
theorem finishExec_started (space : AddressSpace kernel initial oldpgdir)
    (held : Held kernel initial (pages sz) m d) (small : sz < kernbase) :
    Ensures (finishExec kernel oldpgdir d elf argv (some sz)) m
      (fun result m' => ∀ started, result = some started →
        started.pgdir = d ∧ started.eip = elf.entry ∧ started.sz = pgroundup sz + 2 * 4096 ∧
          Decodes m' d started.sz started.esp argv ∧ (∀ v < pages sz, present (m.entry d v)) ∧
          ∀ a, vpn a < pages sz → m'.load d a = m.load d a)
      fun _ => True := by
  rw [finishExec]
  refine ((pushStack_settled held small).and (pushStack_decodes held small)).bind ?_
    fun _ _ => trivial
  rintro result m₁ ⟨⟨reserved, directory, apart, untouched, _⟩, decodes⟩
  cases result with
  | none =>
    refine (ensures_trivial _ m₁).seq ?_
    exact fun _ _ _ _ isSome => by cases isSome
  | some result =>
    obtain ⟨newsz, esp⟩ := result
    obtain ⟨isTop, supervised, decodes, full, loads⟩ := decodes newsz esp rfl
    have owned := space.directory_of_kept directory.once (fun f free => by
      by_contra used
      exact ((directory.free_iff f).mp free).1 (apart f used)) untouched
    refine (freevm_ensures owned).seq ?_
    intro _ m₂ freed
    -- what the new directory holds was free when `exec` began
    have kept : ∀ holder {g}, m₁.holds d holder = some g → m₂.page g = m₁.page g := by
      intro holder g holds
      refine freed.kept g ⟨fun free => ((directory.free_iff g).mp free).2 holder holds, ?_⟩
      intro old owns
      exact directory.apart holder holds (apart g (space.inUse old g owns))
    have entries : m₂.entry d = m₁.entry d :=
      Memory.entry_congr (kept .directory rfl) fun isTable => kept (.table _) isTable
    have same : m₂.load d = m₁.load d := by
      funext a
      rw [Memory.load, Memory.load, Memory.byte, Memory.byte, entries]
      split
      next accessible =>
        rw [kept (.page _) (m₁.holds_page (supervised.lt accessible) accessible.1)]
      next => rfl
    rintro _ ⟨⟩
    refine ⟨rfl, rfl, isTop, ?_, full, fun a inside => ?_⟩
    · rw [Decodes, entries, same]
      exact decodes
    · rw [same, loads a inside]

/-- A successful `exec`, by what is known of the image when the segments are loaded. -/
theorem exec_started {ip : File} {trace : List Event} (loads : UInt32 → Memory → Nat → Prop)
    (header : ip.header = some elf) (space : AddressSpace kernel m oldpgdir)
    (loading : ∀ {m₁ d}, Held kernel m 0 m₁ d →
      Ensures (loadSegments kernel d ip elf.phnum elf.phoff 0) (m₁, trace)
        (fun result s => ∀ sz, result = some sz → loads sz s.1 d) fun _ => True) :
    Ensures (exec kernel oldpgdir (some ip) argv) (m, trace)
      (fun result s => ∀ started, result = some started →
        Decodes s.1 started.pgdir started.sz started.esp argv ∧ started.eip = elf.entry ∧
          ∃ sz m₂, loads sz m₂ started.pgdir ∧ started.sz = pgroundup sz + 2 * 4096 ∧
            (∀ v < pages sz, present (m₂.entry started.pgdir v)) ∧
            ∀ a, vpn a < pages sz → s.1.load started.pgdir a = m₂.load started.pgdir a)
      fun _ => True := by
  rw [exec, header]
  dsimp only
  rw [ensures_bind, ensures_zoom]
  refine (setupkvm_ensures space.sound).weaken ?_
  rintro result m₁ (⟨d, size, rfl, length, built, kept⟩ | ⟨rfl, _⟩)
  · have held : Held kernel m (pages 0) m₁ d := .full length built.populated kept
    refine ((loadSegments_held held (by decide)).and (loading held)).bind ?_ fun _ _ => trivial
    rintro loaded ⟨m₂, trace'⟩ ⟨ready, loaded_⟩
    rw [ensures_zoom]
    cases loaded with
    | none =>
      refine (ensures_trivial _ m₂).seq ?_
      exact fun _ _ _ _ isSome => by cases isSome
    | some sz =>
      obtain ⟨held₂, small, _⟩ := ready
      refine (finishExec_started space held₂ small).weaken ?_
      rintro result m₃ finished started isSome
      obtain ⟨rfl, entry, size, decodes, full, same⟩ := finished started isSome
      exact ⟨decodes, entry, sz, m₂, loaded_ sz rfl, size, full, same⟩
  · exact fun _ isSome => by cases isSome

end

end StraceXv6.Kernel.Vm
