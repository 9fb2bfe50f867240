import StraceXv6.Kernel.Vm.UserStack

namespace StraceXv6.Kernel.Vm

open Data Data.Command

/-! What a file can make `exec` do. -/

def Proghdr.Proper (ph : Proghdr) : Prop :=
  ph.vaddr.toNat % pgsize = 0 ∧ ph.vaddr.toNat + ph.memsz.toNat ≤ kernbase.toNat

instance : DecidablePred Proghdr.Proper := fun _ => inferInstanceAs (Decidable (_ ∧ _))

def latest : List Event → UInt32
  | [] => 0
  | .grown sz :: _ => sz
  | .loaded .. :: rest => latest rest
  | .accepted _ :: rest => latest rest

/-- `loaduvm` has written only to `[0, sz)`, which is below `KERNBASE`, and to pages that were
free. -/
def Inside (free : List Nat) : List Event → Prop
  | [] => True
  | .grown _ :: rest => Inside free rest
  | .loaded va page count :: rest =>
    (va.toNat + count ≤ (latest rest).toNat ∧ latest rest < kernbase ∧ page ∈ free) ∧
      Inside free rest
  | .accepted _ :: rest => Inside free rest

def Improper (trace : List Event) : Prop := ∃ ph, Event.accepted ph ∈ trace ∧ ¬ph.Proper

/-- `exec` of the file returns, it writes the file's bytes only to pages of the new image, and if
it succeeds then all headers that it has accepted are proper. -/
def Contained (kernel : Image) (m : Memory) (pgdir : Nat) (ip : File) (argv : List Argument) :
    Prop :=
  Ensures (exec kernel pgdir (some ip) argv) (m, [])
    (fun result s => Inside m.freelist s.2 ∧ (result.isSome = true → ¬Improper s.2))
    fun _ => False

def HasTable (k v : Nat) : Prop := KernelTable (v / nptentries) ∨ nptentries * (v / nptentries) < k

instance (k v : Nat) : Decidable (HasTable k v) := inferInstanceAs (Decidable (_ ∨ _))

/-- The bytes that the file has for the segment lie in `[0, sz)`.  If there are less than the header
says, `loaduvm` still looks for the page where the next one would go. -/
structure File.Loadable (ip : File) (ph : Proghdr) (sz : UInt32) : Prop where
  aligned : ph.vaddr.toNat % pgsize = 0
  inside : ip.available ph.off ph.filesz = 0 ∨
    ph.vaddr.toNat + ip.available ph.off ph.filesz ≤ sz.toNat
  table : ip.available ph.off ph.filesz < ph.filesz.toNat →
    HasTable (pages sz) ((ph.vaddr.toNat + ip.available ph.off ph.filesz) % 2 ^ 32 / pgsize)

/-- The arguments of the program; after an improper header they must not fit. -/
def ArgumentsSafe (improper : Prop) (sz : UInt32) (argv : List Argument) : Prop :=
  match stackPlacement sz argv with
  | .fits _ => ¬improper
  | .refused => True
  | .wild => False

/-- All headers that `exec` comes to are harmless, and so are the arguments. -/
def File.Safe (ip : File) (argv : List Argument) : Prop → Nat → UInt32 → UInt32 → Prop
  | improper, 0, _, sz => ArgumentsSafe improper sz argv
  | improper, n + 1, off, sz =>
    match ip.segment off with
    | none => True
    | some ph =>
      if ph.type ≠ elfProgLoad then ip.Safe argv improper n (off + 32) sz
      else if ph.memsz < ph.filesz then True
      else if kernbase ≤ ph.vaddr + ph.memsz then True
      else if grownTo sz (ph.vaddr + ph.memsz) = 0 then True
      else ip.Loadable ph (grownTo sz (ph.vaddr + ph.memsz)) ∧
        (ip.available ph.off ph.filesz = ph.filesz.toNat →
          ip.Safe argv (improper ∨ ¬ph.Proper) n (off + 32)
            (grownTo sz (ph.vaddr + ph.memsz)))

def File.Harmless (ip : File) (argv : List Argument) : Prop :=
  match ip.header with
  | none => True
  | some elf => ip.Safe argv False elf.phnum elf.phoff 0

/-- The free pages that `exec` of the file takes: the directory, the page tables of the kernel's
mappings, the pages of the image and their page tables. -/
def File.footprint (ip : File) : Nat :=
  match ip.header with
  | none => 0
  | some elf =>
    65 + ip.asked elf.phnum elf.phoff 0 + (ip.asked elf.phnum elf.phoff 0 + 1023) / 1024

instance (ip : File) (ph : Proghdr) (sz : UInt32) : Decidable (ip.Loadable ph sz) :=
  decidable_of_iff (ph.vaddr.toNat % pgsize = 0 ∧
      (ip.available ph.off ph.filesz = 0 ∨
        ph.vaddr.toNat + ip.available ph.off ph.filesz ≤ sz.toNat) ∧
      (ip.available ph.off ph.filesz < ph.filesz.toNat → HasTable (pages sz)
        ((ph.vaddr.toNat + ip.available ph.off ph.filesz) % 2 ^ 32 / pgsize)))
    ⟨fun all => ⟨all.1, all.2.1, all.2.2⟩,
      fun loadable => ⟨loadable.aligned, loadable.inside, loadable.table⟩⟩

instance (improper : Prop) [Decidable improper] (sz : UInt32) (argv : List Argument) :
    Decidable (ArgumentsSafe improper sz argv) :=
  match placed : stackPlacement sz argv with
  | .fits _ => decidable_of_iff (¬improper) (by rw [ArgumentsSafe, placed])
  | .refused => isTrue (by rw [ArgumentsSafe, placed]; trivial)
  | .wild => isFalse (by rw [ArgumentsSafe, placed]; exact id)

instance File.decidableSafe (ip : File) (argv : List Argument) :
    (improper : Prop) → [Decidable improper] → (n : Nat) → (off sz : UInt32) →
      Decidable (ip.Safe argv improper n off sz)
  | improper, _, 0, _, sz => inferInstanceAs (Decidable (ArgumentsSafe improper sz argv))
  | improper, _, n + 1, off, sz =>
    match found : ip.segment off with
    | none => isTrue (by rw [File.Safe, found]; trivial)
    | some ph =>
      have := ip.decidableSafe argv improper n (off + 32) sz
      have := ip.decidableSafe argv (improper ∨ ¬ph.Proper) n (off + 32)
        (grownTo sz (ph.vaddr + ph.memsz))
      decidable_of_iff _ (iff_of_eq (by rw [File.Safe, found])).symm

instance (ip : File) (argv : List Argument) : Decidable (ip.Harmless argv) :=
  match header : ip.header with
  | none => isTrue (by rw [File.Harmless, header]; trivial)
  | some elf => decidable_of_iff (ip.Safe argv False elf.phnum elf.phoff 0)
      (by rw [File.Harmless, header])

section

variable {kernel : Image} {reserved : Nat → Prop} {m m' : Memory} {d size : Nat}
  {fails : Panic → Prop}

theorem Improper.cons_iff {event : Event} {trace : List Event} :
    Improper (event :: trace) ↔ (∃ ph, event = .accepted ph ∧ ¬ph.Proper) ∨ Improper trace := by
  constructor
  · rintro ⟨ph, member, improper⟩
    rcases List.mem_cons.mp member with same | before
    · exact .inl ⟨ph, same.symm, improper⟩
    · exact .inr ⟨ph, before, improper⟩
  · rintro (⟨ph, rfl, improper⟩ | ⟨ph, before, improper⟩)
    · exact ⟨ph, .head _, improper⟩
    · exact ⟨ph, .tail _ before, improper⟩

structure Visited (d : Nat) (free : List Nat) (m : Memory) (trace : List Event) (sz : UInt32)
    (vaddr available j : Nat) (s : Memory × List Event) : Prop where
  rewritten : Rewritten d m s.1
  size : latest s.2 = sz
  improper : Improper s.2 ↔ Improper trace
  inside : Inside free s.2 ↔ Inside free trace ∧
    (min available (pgsize * j) = 0 ∨ vaddr + min available (pgsize * j) ≤ sz.toNat)
  tables : ∀ i < j, HasTable (pages sz) ((vaddr + pgsize * i) % 2 ^ 32 / pgsize)

theorem last_page {vaddr available : Nat} (aligned : vaddr % pgsize = 0) :
    (vaddr + pgsize * (available / pgsize)) % 2 ^ 32 / pgsize =
      (vaddr + available) % 2 ^ 32 / pgsize := by
  change vaddr % 4096 = 0 at aligned
  change (vaddr + 4096 * (available / 4096)) % 2 ^ 32 / 4096 = (vaddr + available) % 2 ^ 32 / 4096
  omega

section

variable {ph : Proghdr} {ip : File} {sz va : UInt32} {trace : List Event} {free : List Nat}
  {j : Nat}

theorem File.Loadable.page (loadable : ip.Loadable ph sz) (small : sz < kernbase)
    (isVa : va.toNat = (ph.vaddr.toNat + pgsize * j) % 2 ^ 32)
    (more : pgsize * j < ip.available ph.off ph.filesz) : va < kernbase ∧ vpn va < pages sz := by
  have bound := UInt32.lt_iff_toNat_lt.mp small
  have within := loadable.inside.resolve_left (by omega)
  rw [UInt32.lt_iff_toNat_lt]
  change sz.toNat < 0x80000000 at bound
  change va.toNat = (_ + 4096 * j) % 2 ^ 32 at isVa
  change 4096 * j < _ at more
  change va.toNat < 0x80000000 ∧ va.toNat / 4096 < (sz.toNat + 4095) / 4096
  omega

theorem File.Loadable.hasTable (loadable : ip.Loadable ph sz) (small : sz < kernbase)
    (isVa : va.toNat = (ph.vaddr.toNat + pgsize * j) % 2 ^ 32)
    (below : pgsize * j < ph.filesz.toNat) (reached : pgsize * j ≤ ip.available ph.off ph.filesz) :
    HasTable (pages sz) (vpn va) := by
  by_cases more : pgsize * j < ip.available ph.off ph.filesz
  · have inside := (loadable.page small isVa more).2
    right
    change 1024 * (vpn va / 1024) < _
    omega
  · have last : ip.available ph.off ph.filesz = pgsize * j := by omega
    have table := loadable.table (by omega)
    rw [last, ← isVa] at table
    exact table

theorem Visited.next {s : Memory × List Event} {bytes : List UInt8}
    (populated : Populated kernel (· ∉ free) size (pages sz) m d) (small : sz < kernbase)
    (visited : Visited d free m trace sz ph.vaddr.toNat (ip.available ph.off ph.filesz) j s)
    (isVa : va.toNat = (ph.vaddr.toNat + pgsize * j) % 2 ^ 32)
    (below : pgsize * j < ph.filesz.toNat) (reached : pgsize * j ≤ ip.available ph.off ph.filesz)
    (count : bytes.length = min pgsize (ip.available ph.off ph.filesz - pgsize * j)) :
    Ensures (loadPage d va bytes) s
      (fun _ s' =>
        Visited d free m trace sz ph.vaddr.toNat (ip.available ph.off ph.filesz) (j + 1) s')
      fun _ => ¬ip.Loadable ph sz := by
  have populated' := visited.rewritten.populated populated
  have tables : ∀ {v}, (s.1.table d (v / nptentries)).isSome = true ↔ HasTable (pages sz) v :=
    populated'.tables _
  have onPage : (ph.vaddr.toNat + pgsize * j) % 2 ^ 32 / pgsize = vpn va := by rw [← isVa]; rfl
  have visits : HasTable (pages sz) (vpn va) → ∀ i < j + 1,
      HasTable (pages sz) ((ph.vaddr.toNat + pgsize * i) % 2 ^ 32 / pgsize) := by
    intro here i before
    by_cases last : i = j
    · rw [last, onPage]
      exact here
    · exact visited.tables i (by omega)
  refine loadPage_ensures populated'.directory (fun empty isTable => ?_)
    (fun {after} nonempty user mapped _ more => ?_) (fun missing loadable => ?_)
    fun nonempty outside loadable => ?_
  · have same : min (ip.available ph.off ph.filesz) (pgsize * (j + 1)) =
        min (ip.available ph.off ph.filesz) (pgsize * j) := by
      rw [empty, List.length_nil] at count
      change 0 = min 4096 (_ - 4096 * j) at count
      change min _ (4096 * (j + 1)) = min _ (4096 * j)
      omega
    exact {
      rewritten := visited.rewritten
      size := visited.size
      improper := visited.improper
      inside := by
        rw [same]
        exact visited.inside
      tables := visits (tables.mp isTable) }
  · have positive := List.length_pos_iff.mpr nonempty
    have framed : frame (s.1.entry d (vpn va)) ∈ free := not_not.mp
      (populated'.directory.apart (.page (vpn va)) (s.1.holds_page (vpn_lt_userPages user) mapped))
    exact {
      rewritten := visited.rewritten.trans more
      size := visited.size
      improper := by
        rw [Improper.cons_iff, or_iff_right, visited.improper]
        rintro ⟨ph, other, _⟩
        exact Event.noConfusion other
      inside := by
        rw [Inside, visited.inside, visited.size]
        simp only [small, framed, and_true]
        rw [and_left_comm]
        apply and_congr_right
        intro _
        rw [isVa]
        change (_ + 4096 * j) % 2 ^ 32 + _ ≤ _ ∧
          (min _ (4096 * j) = 0 ∨ _ + min _ (4096 * j) ≤ _) ↔
          min _ (4096 * (j + 1)) = 0 ∨ _ + min _ (4096 * (j + 1)) ≤ _
        change 4096 * j ≤ _ at reached
        have bound := sz.toNat_lt
        have bound' := ph.vaddr.toNat_lt
        change bytes.length = min 4096 (_ - 4096 * j) at count
        omega
      tables := visits (tables.mp (Memory.table_isSome_of_present mapped)) }
  · have isTable := tables.mpr (loadable.hasTable small isVa below reached)
    rw [missing] at isTable
    cases isTable
  · have positive := List.length_pos_iff.mpr nonempty
    have here := loadable.page small isVa (by omega)
    exact outside ⟨here.1, (populated'.mapped _).mpr (.inr here.2)⟩

theorem loaduvm_inside (populated : Populated kernel (· ∉ free) size (pages sz) m d)
    (small : sz < kernbase) :
    Ensures (loaduvm d ph.vaddr ip ph.off ph.filesz) (m, .grown sz :: trace)
      (fun result s => Rewritten d m s.1 ∧
        (result = true ↔ ip.available ph.off ph.filesz = ph.filesz.toNat) ∧
        (Inside free s.2 ↔ Inside free trace ∧ ip.Loadable ph sz) ∧
        (Improper s.2 ↔ Improper trace))
      fun _ => ¬ip.Loadable ph sz := by
  by_cases aligned : ph.vaddr.toNat % pgsize = 0
  case neg =>
      rw [loaduvm, if_pos aligned]
      exact fun loadable => aligned loadable.aligned
  have initially : Visited d free m trace sz ph.vaddr.toNat (ip.available ph.off ph.filesz) 0
      (m, .grown sz :: trace) := {
    rewritten := .refl d m
    size := rfl
    improper := by
      rw [Improper.cons_iff, or_iff_right]
      rintro ⟨ph, other, _⟩
      exact Event.noConfusion other
    inside := (and_iff_left (.inl (Nat.min_zero _))).symm
    tables := fun _ before => absurd before (Nat.not_lt_zero _) }
  -- the bytes that the file has are all loaded, and the last page that is visited has a table
  have loadable_iff : ∀ {j s},
      Visited d free m trace sz ph.vaddr.toNat (ip.available ph.off ph.filesz) j s →
      ip.available ph.off ph.filesz ≤ pgsize * j →
      (ip.available ph.off ph.filesz < ph.filesz.toNat →
        ip.available ph.off ph.filesz / pgsize < j) →
      (Inside free s.2 ↔ Inside free trace ∧ ip.Loadable ph sz) := by
    intro j s visited all last
    rw [visited.inside, Nat.min_eq_left all]
    refine and_congr_right fun _ => ⟨fun inside => ⟨aligned, inside, fun less => ?_⟩, fun loadable => loadable.inside⟩
    rw [← last_page aligned]
    exact visited.tables _ (last less)
  refine (loaduvm_ensures aligned _
    (fun isVa below reached count _ visited =>
      Visited.next populated small visited isVa below reached count) initially).weaken ?_
  rintro result s (⟨rfl, all, visited⟩ | ⟨rfl, less, visited⟩)
  · refine ⟨visited.rewritten, iff_of_true rfl all, loadable_iff visited ?_ ?_, visited.improper⟩
    · rw [all]
      change _ ≤ 4096 * ((ph.filesz.toNat + 4095) / 4096)
      omega
    · intro less
      omega
  · refine ⟨visited.rewritten, iff_of_false Bool.false_ne_true (Nat.ne_of_lt less),
      loadable_iff visited ?_ fun _ => Nat.lt_succ_self _, visited.improper⟩
    change _ ≤ 4096 * (_ / 4096 + 1)
    omega

end

section

variable {ip : File} {initial : Memory}

structure Ready (kernel : Image) (initial : Memory) (size k : Nat) (m : Memory) (d : Nat) :
    Prop where
  populated : Populated kernel (· ∉ initial.freelist) size k m d
  kept : ∀ g, g ∉ initial.freelist → m.page g = initial.page g

theorem Ready.rewritten {k : Nat} (ready : Ready kernel initial size k m d)
    (rewritten : Rewritten d m m') : Ready kernel initial size k m' d where
  populated := rewritten.populated ready.populated
  kept := fun g used =>
    (rewritten.page_of_reserved ready.populated.directory used).trans (ready.kept g used)

variable {sz : UInt32}

theorem Ready.allocuvm {newsz : UInt32} (ready : Ready kernel initial size (pages sz) m d)
    (limit : newsz < kernbase)
    (room : 64 + pages (grownTo sz newsz) + (pages (grownTo sz newsz) + 1023) / 1024 ≤ size) :
    Ensures (Vm.allocuvm kernel d sz newsz) m
      (fun result m' => result = grownTo sz newsz ∧
        Ready kernel initial size (pages (grownTo sz newsz)) m' d) fails := by
  have inside := pages_le (UInt32.le_of_lt limit)
  have spent := ready.populated.spent
  by_cases less : newsz < sz
  · rw [Vm.allocuvm, if_neg (UInt32.not_le.mpr limit), if_pos less, grownTo, if_pos less]
    exact ⟨rfl, ready⟩
  · have ordered := UInt32.not_lt.mp less
    have grows := pages_mono ordered
    rw [grownTo, if_neg less] at room ⊢
    refine (allocuvm_ensures limit ordered (fun above below =>
      ready.populated.unmapped above (below.trans_le inside)) ready.populated.directory).weaken ?_
    intro result m' allocated
    obtain ⟨rfl, populated, grown⟩ :=
      ready.populated.allocated inside grows (by omega) allocated
    exact ⟨rfl, populated, fun g used =>
      (grown.extended.page_of_reserved ready.populated.directory used).trans (ready.kept g used)⟩

theorem loadSegments_safe (argv : List Argument) {n : Nat} {off : UInt32} {trace : List Event}
    (ready : Ready kernel initial size (pages sz) m d) (small : sz < kernbase)
    (room : 64 + ip.asked n off sz + (ip.asked n off sz + 1023) / 1024 ≤ size) :
    Ensures (loadSegments kernel d ip n off sz) (m, trace)
      (fun result s => match result with
        | none => Directory kernel (· ∉ initial.freelist) s.1 d ∧
            (Inside initial.freelist s.2 ↔
              Inside initial.freelist trace ∧ ip.Safe argv (Improper trace) n off sz)
        | some sz' => Ready kernel initial size (pages sz') s.1 d ∧ sz' < kernbase ∧
            64 + withStack sz' + (withStack sz' + 1023) / 1024 ≤ size ∧
            (Inside initial.freelist s.2 ∧ ArgumentsSafe (Improper s.2) sz' argv ↔
              Inside initial.freelist trace ∧ ip.Safe argv (Improper trace) n off sz))
      fun _ => ¬ip.Safe argv (Improper trace) n off sz := by
  induction n generalizing off sz m trace with
  | zero => exact ⟨ready, small, room, Iff.rfl⟩
  | succ n induction =>
    have directory := ready.populated.directory
    have whole := room
    rw [loadSegments, File.Safe]
    rw [File.asked] at room
    cases found : ip.segment off with
    | none => exact ⟨directory, (and_iff_left trivial).symm⟩
    | some ph =>
      rw [found] at room
      dsimp only at room ⊢
      by_cases load : ph.type ≠ elfProgLoad
      · rw [if_pos load] at room ⊢
        rw [if_pos load]
        exact induction ready small room
      rw [if_neg load] at room ⊢
      rw [if_neg load]
      by_cases short : ph.memsz < ph.filesz
      · rw [if_pos short, if_pos short]
        exact ⟨directory, (and_iff_left trivial).symm⟩
      rw [if_neg short] at room ⊢
      rw [if_neg short, ensures_bind, ensures_zoom]
      by_cases above : kernbase ≤ ph.vaddr + ph.memsz
      · rw [if_pos above, Vm.allocuvm, if_pos above]
        exact ⟨directory, (and_iff_left trivial).symm⟩
      have limit := UInt32.not_le.mp above
      have larger := grownTo_lt small limit
      have enough : 64 + pages (grownTo sz (ph.vaddr + ph.memsz)) +
          (pages (grownTo sz (ph.vaddr + ph.memsz)) + 1023) / 1024 ≤ size := by
        have asks := ip.pages_grownTo_le_asked n sz found load short above
        omega
      rw [if_neg above] at room ⊢
      refine (ready.allocuvm limit enough).weaken ?_
      generalize grownTo sz (ph.vaddr + ph.memsz) = newsz at larger room ⊢
      rintro result m₁ ⟨same, ready₁⟩
      rw [same]
      by_cases nothing : newsz = 0
      · rw [if_pos nothing, if_pos nothing]
        exact ⟨ready₁.populated.directory, (and_iff_left trivial).symm⟩
      rw [if_neg nothing] at room ⊢
      rw [if_neg nothing, ensures_bind, ensures_emit]
      refine (loaduvm_inside ready₁.populated larger).bind ?_
        fun _ refuted both => refuted both.1
      rintro result ⟨m₂, trace'⟩ ⟨rewritten, loaded, inside, improper⟩
      have ready₂ := ready₁.rewritten rewritten
      cases result with
      | false =>
        have less : ¬ip.available ph.off ph.filesz = ph.filesz.toNat :=
          fun all => absurd (loaded.mpr all) Bool.false_ne_true
        refine ⟨ready₂.populated.directory, inside.trans (and_congr_right fun _ => ?_)⟩
        exact (and_iff_left fun all => absurd all less).symm
      | true =>
        have all := loaded.mp rfl
        rw [if_neg (Nat.not_lt_of_le (Nat.le_of_eq all.symm))] at room
        have both : Improper (.accepted ph :: trace') = (Improper trace ∨ ¬ph.Proper) := by
          rw [Improper.cons_iff, improper, or_comm]
          simp
        have safe_iff : ∀ {rest : Prop},
            Inside initial.freelist trace' ∧ rest ↔ Inside initial.freelist trace ∧
              ip.Loadable ph newsz ∧
                (ip.available ph.off ph.filesz = ph.filesz.toNat → rest) := by
          intro rest
          rw [inside, and_assoc, forall_prop_of_true all]
        rw [if_pos rfl, ensures_bind, ensures_emit]
        refine (induction ready₂ larger room).mono ?_ ?_
        · intro result s after
          rw [both] at after
          cases result with
          | none => exact ⟨after.1, after.2.trans safe_iff⟩
          | some sz' => exact ⟨after.1, after.2.1, after.2.2.1, after.2.2.2.trans safe_iff⟩
        · intro _ refuted safe
          rw [both] at refuted
          exact refuted (safe.2 all)

end

variable {pgdir : Nat} {argv : List Argument} {ip : File}

theorem AddressSpace.directory_of_kept (space : AddressSpace kernel m pgdir)
    (once : m'.freelist.Nodup) (shorter : m'.freelist ⊆ m.freelist)
    (kept : ∀ g, g ∉ m.freelist → m'.page g = m.page g) :
    Directory kernel (fun f => f ∉ m'.freelist ∧ ∀ holder, m.holds pgdir holder ≠ some f) m'
      pgdir := by
  have same := space.inUse.unchanged kept
  have held := Memory.holds_congr same.1 same.2
  exact {
    accounted := {
      alone := by
        rw [held]
        exact space.directory.accounted.alone
      apart := by
        rw [held]
        exact fun {holder _} owned reserved => reserved.2 holder owned
      marked_iff := by
        intro f
        rw [held, Memory.taken, decide_eq_true_iff]
        constructor
        · intro used
          by_cases owned : ∃ holder, m.holds pgdir holder = some f
          · exact .inr owned
          · exact .inl ⟨used, not_exists.mp owned⟩
        · rintro (reserved | ⟨holder, owned⟩)
          · exact reserved.1
          · exact fun free => space.inUse holder f owned (shorter free) }
    once := once
    usable := by
      intro f open_
      apply space.directory.usable
      rintro ⟨used, unheld⟩
      exact open_ ⟨fun free => used (shorter free), unheld⟩ }

theorem finishExec_safe {initial : Memory} {elf : Elfhdr} {sz : UInt32} (inside improper : Prop)
    (space : AddressSpace kernel initial pgdir) (ready : Ready kernel initial size (pages sz) m d)
    (small : sz < kernbase) (room : 64 + withStack sz + (withStack sz + 1023) / 1024 ≤ size) :
    Ensures (finishExec kernel pgdir d elf argv (some sz)) m
      (fun result _ => (inside ∧ (result.isSome = true → ¬improper)) ↔
        inside ∧ ArgumentsSafe improper sz argv)
      fun _ => ¬ArgumentsSafe improper sz argv := by
  rw [finishExec, ensures_bind, ArgumentsSafe]
  refine (pushStack_placement ready.populated small room).mono ?_ ?_
  · rintro result m₁ ⟨kept, outcome⟩
    cases placed : stackPlacement sz argv with
    | fits sp =>
      rw [placed] at outcome
      obtain ⟨newsz, rfl⟩ := outcome
      have owned := space.directory_of_kept kept.directory.once
        (fun f free => not_not.mp ((kept.directory.free_iff f).mp free).1)
        fun g used => (kept.pages g used).trans (ready.kept g used)
      refine (freevm_ensures owned).seq ?_
      exact fun _ _ _ => and_congr_right fun _ => forall_prop_of_true rfl
    | refused =>
      rw [placed] at outcome
      subst outcome
      refine (freevm_ensures kept.directory).seq ?_
      exact fun _ _ _ => and_congr_right fun _ =>
        iff_of_true (fun success => absurd success Bool.false_ne_true) trivial
    | wild =>
      rw [placed] at outcome
      exact outcome.elim
  · intro _ wild
    rw [wild]
    exact id

theorem exec_safe (space : AddressSpace kernel m pgdir) (room : ip.footprint ≤ m.freelist.length) :
    Ensures (exec kernel pgdir (some ip) argv) (m, [])
      (fun result s =>
        (Inside m.freelist s.2 ∧ (result.isSome = true → ¬Improper s.2)) ↔ ip.Harmless argv)
      fun _ => ¬ip.Harmless argv := by
  rw [exec, File.Harmless]
  rw [File.footprint] at room
  cases header : ip.header with
  | none =>
    exact iff_of_true ⟨trivial, fun success => absurd success Bool.false_ne_true⟩ trivial
  | some elf =>
    rw [header] at room
    dsimp only at room ⊢
    have fresh : Improper [] = False := by
      apply eq_false
      rintro ⟨_, member, _⟩
      exact absurd member List.not_mem_nil
    rw [ensures_bind, ensures_zoom]
    refine (setupkvm_ensures space.sound).weaken ?_
    rintro result m₁ (⟨d, size, rfl, length, built, kept⟩ | ⟨_, few, _⟩)
    · have loads : Ensures (loadSegments kernel d ip elf.phnum elf.phoff 0) (m₁, []) _ _ :=
        loadSegments_safe argv ⟨built.populated, kept⟩ (by decide) (by omega)
      rw [fresh] at loads
      refine loads.bind ?_ fun _ refuted => refuted
      rintro loaded ⟨m₂, trace⟩ after
      rw [ensures_zoom]
      cases loaded with
      | none =>
        obtain ⟨directory, inside⟩ := after
        refine (freevm_ensures directory).seq ?_
        intro _ _ _
        refine Iff.trans (and_iff_left fun success => absurd success Bool.false_ne_true) ?_
        exact inside.trans (and_iff_right trivial)
      | some sz =>
        obtain ⟨ready, small, enough, inside⟩ := after
        refine (finishExec_safe (Inside m.freelist trace) (Improper trace) space ready small
          enough).mono ?_ ?_
        · exact fun _ _ good => (good.trans inside).trans (and_iff_right trivial)
        · exact fun _ refuted safe => refuted (inside.mpr ⟨trivial, safe⟩).2
    · omega

theorem harmless_of_contained (space : AddressSpace kernel m pgdir)
    (room : ip.footprint ≤ m.freelist.length) (contained : Contained kernel m pgdir ip argv) :
    ip.Harmless argv := by
  obtain ⟨_, _, _, good, iff⟩ := ((contained.and (exec_safe space room)).mono
    (fun _ _ both => both) fun _ both => both.1).exists_ok
  exact iff.mp good

/-- For which files `exec` is safe, with enough memory. -/
theorem exec_contained_iff {pgdir : Nat} {ip : File} {argv : List Argument}
    (space : AddressSpace kernel m pgdir) (room : ip.footprint ≤ m.freelist.length) :
    Contained kernel m pgdir ip argv ↔ ip.Harmless argv := by
  refine ⟨harmless_of_contained space room, fun harmless => ?_⟩
  exact (exec_safe space room).mono (fun _ _ iff => iff.mpr harmless)
    fun _ refuted => refuted harmless

end

def program (ph : Proghdr) : File where
  bytes := [elfMagic, 0, 0, 0, 0, 0, 0, 52, 0, 0, 0, 1, 0,
    ph.type, ph.off, ph.vaddr, 0, ph.filesz, ph.memsz, 0, 0].flatMap wordBytes
  fits := by
    change 84 ≤ 71680
    decide

def plain : Proghdr where
  type := elfProgLoad
  off := 0
  vaddr := 0
  filesz := 4
  memsz := 4096

def misaligned : Proghdr where
  type := elfProgLoad
  off := 0
  vaddr := 1
  filesz := 0
  memsz := 1

def overKernel : Proghdr where
  type := elfProgLoad
  off := 0
  vaddr := kernbase
  filesz := 4
  memsz := kernbase + 4096

theorem exec_contained_plain : ∃ pgdir m,
    newProcess smallKernel 100 spareMemory = .ok (some pgdir, m) ∧
      Contained smallKernel m pgdir (program plain) [] := by
  obtain ⟨pgdir, m, returned, process, left⟩ := exists_newProcess
  have room : (program plain).footprint = 69 := by decide +kernel
  refine ⟨pgdir, m, returned, (exec_contained_iff process.space ?_).mpr (by decide +kernel)⟩
  rw [room, left]
  decide

/-- A segment that does not begin at a page makes `loaduvm` panic, and one whose end wraps around
is written over the kernel. -/
theorem exec_not_contained : ∃ pgdir m,
    newProcess smallKernel 100 spareMemory = .ok (some pgdir, m) ∧
      ∀ ph ∈ [misaligned, overKernel], (program ph).footprint ≤ m.freelist.length ∧
        ¬Contained smallKernel m pgdir (program ph) [] := by
  obtain ⟨pgdir, m, returned, process, left⟩ := exists_newProcess
  have room : ∀ ph ∈ [misaligned, overKernel], (program ph).footprint = 69 := by decide +kernel
  have harm : ∀ ph ∈ [misaligned, overKernel], ¬(program ph).Harmless [] := by decide +kernel
  have enough : ∀ ph ∈ [misaligned, overKernel], (program ph).footprint ≤ m.freelist.length := by
    intro ph listed
    rw [room ph listed, left]
    decide
  -- the file stays a variable, so that no step of the proof runs `exec`
  have refute : ∀ ip : File, ip.footprint ≤ m.freelist.length → ¬ip.Harmless [] →
      ¬Contained smallKernel m pgdir ip [] := fun ip room harm contained =>
    harm (harmless_of_contained process.space room contained)
  exact ⟨pgdir, m, returned, fun ph listed => ⟨enough ph listed,
    refute (program ph) (enough ph listed) (harm ph listed)⟩⟩

end StraceXv6.Kernel.Vm
