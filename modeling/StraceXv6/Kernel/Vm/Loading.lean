import StraceXv6.Kernel.Vm.Exec

namespace StraceXv6.Kernel.Vm

open Option UInt32 Data Data.Command

/-! What `loaduvm` and `copyout` do to an image. -/

structure Rewritten (d : Nat) (m m' : Memory) : Prop where
  tables : m'.table d = m.table d
  entries : m'.entry d = m.entry d
  list : m'.freelist = m.freelist
  kept : ∀ {g}, (∀ v, m.holds d (.page v) ≠ some g) → m'.page g = m.page g

namespace Rewritten

variable {d : Nat} {m m' m'' : Memory}

theorem refl (d : Nat) (m : Memory) : Rewritten d m m := ⟨rfl, rfl, rfl, fun _ => rfl⟩

theorem trans (first : Rewritten d m m') (second : Rewritten d m' m'') : Rewritten d m m'' where
  tables := second.tables.trans first.tables
  entries := second.entries.trans first.entries
  list := second.list.trans first.list
  kept := by
    intro g unheld
    rw [second.kept, first.kept unheld]
    rw [Memory.holds_congr first.tables first.entries]
    exact unheld

variable {kernel : Image} {reserved : Nat → Prop} {size k : Nat}

theorem directory (rewritten : Rewritten d m m') (directory : Directory kernel reserved m d) :
    Directory kernel reserved m' d :=
  directory.of_holds (Memory.holds_congr rewritten.tables rewritten.entries) rewritten.list

theorem populated (rewritten : Rewritten d m m')
    (populated : Populated kernel reserved size k m d) :
    Populated kernel reserved size k m' d where
  directory := rewritten.directory populated.directory
  tables := by
    rw [rewritten.tables]
    exact populated.tables
  mapped := by
    rw [rewritten.entries]
    exact populated.mapped
  supervisor := by
    rw [rewritten.entries]
    exact populated.supervisor
  spent := by
    rw [rewritten.list]
    exact populated.spent

theorem page_of_reserved (rewritten : Rewritten d m m')
    (directory : Directory kernel reserved m d) {g : Nat} (kept : reserved g) :
    m'.page g = m.page g := rewritten.kept fun v held => directory.apart (.page v) held kept

theorem setPage (directory : Directory kernel reserved m d) {v : Nat} (user : v < userPages)
    (mapped : present (m.entry d v)) (content : Page) :
    Rewritten d m (m.setPage (frame (m.entry d v)) content) := by
  obtain ⟨tables, entries⟩ := Memory.entries_setPage (directory.frame_ne_directory user mapped)
    (directory.frame_ne_table user mapped) content
  refine ⟨tables, entries, rfl, fun {g} unheld => Memory.page_setPage_of_ne ?_ _ _⟩
  rintro rfl
  exact unheld v (m.holds_page user mapped)

end Rewritten

theorem vpn_lt_userPages {va : UInt32} (below : va < kernbase) : vpn va < userPages := by
  rw [lt_iff_toNat_lt] at below
  change va.toNat < 0x80000000 at below
  change va.toNat / 4096 < 0x80000
  omega

section

variable {fails : Panic → Prop} {after : Unit → Memory × List Event → Prop}
  {s : Memory × List Event} {bytes : List UInt8} {va filesz addr offset uva : UInt32} {ip : File}

theorem ensures_emit {event : Event} :
    Ensures (emit event) s after fails ↔ after () (s.1, event :: s.2) := Iff.rfl

theorem ensures_writePage {page start : Nat} {m : Memory} {after : Unit → Memory → Prop} :
    Ensures (writePage page start bytes) m after fails ↔
      after () (m.setPage page (overwrite (m.page page) start bytes)) := Iff.rfl

variable {kernel : Image} {reserved : Nat → Prop} {m : Memory} {d : Nat} {trace : List Event}

theorem loadPage_ensures (directory : Directory kernel reserved m d)
    (nothing : bytes = [] → (m.table d (vpn va / nptentries)).isSome = true → after () (m, trace))
    (writes : ∀ {m'}, bytes ≠ [] → va < kernbase → present (m.entry d (vpn va)) →
      m' = m.setPage (frame (m.entry d (vpn va)))
        (overwrite (m.page (frame (m.entry d (vpn va)))) 0 bytes) → Rewritten d m m' →
      after () (m', .loaded va (frame (m.entry d (vpn va))) bytes.length :: trace))
    (missing : m.table d (vpn va / nptentries) = none → fails .addressShouldExist)
    (stray : bytes ≠ [] → ¬(va < kernbase ∧ present (m.entry d (vpn va))) → fails .stray) :
    Ensures (loadPage d va bytes) (m, trace) after fails := by
  rw [loadPage, ensures_bind, ensures_zoom, ensures_walkpgdir]
  cases found : m.table d (vpn va / nptentries) with
  | none => exact missing found
  | some t =>
    simp only [map_some, ensures_bind, ensures_zoom, ensures_getEntry,
      ← Memory.entry_eq found]
    by_cases empty : bytes = []
    · rw [if_pos empty]
      exact nothing empty (by rw [found]; rfl)
    · rw [if_neg empty]
      by_cases image : va < kernbase ∧ present (m.entry d (vpn va))
      · simp only [if_pos image, ensures_bind, ensures_zoom, ensures_writePage, ensures_emit]
        exact writes empty image.1 image.2 rfl
          (.setPage directory (vpn_lt_userPages image.1) image.2 _)
      · rw [if_neg image]
        exact stray empty image

def File.available (file : File) (off filesz : UInt32) : Nat :=
  min filesz.toNat (file.bytes.length - off.toNat)

theorem length_readi {file : File} {off i : UInt32} {j : Nat} (starts : i.toNat = pgsize * j)
    (below : i < filesz) (reached : pgsize * j ≤ file.available off filesz) :
    ((file.readi (off + i) (if filesz - i < 4096 then filesz - i else 4096)).getD []).length =
      min pgsize (file.available off filesz - pgsize * j) ∧
    (∀ t < min pgsize (file.available off filesz - pgsize * j),
      ((file.readi (off + i) (if filesz - i < 4096 then filesz - i else 4096)).getD [])[t]? =
        file.bytes[off.toNat + (pgsize * j + t)]?) ∧
    (if filesz - i < 4096 then filesz - i else 4096 : UInt32).toNat =
      min pgsize (filesz.toNat - pgsize * j) := by
  have fits := file.fits
  have bound := off.toNat_lt
  have bound' := filesz.toNat_lt
  rw [lt_iff_toNat_lt, starts] at below
  have difference : (filesz - i).toNat = filesz.toNat - 4096 * j := by
    rw [UInt32.toNat_sub, starts]
    change (2 ^ 32 - 4096 * j + filesz.toNat) % 2 ^ 32 = _
    change 4096 * j < _ at below
    omega
  have count : (if filesz - i < 4096 then filesz - i else 4096 : UInt32).toNat =
      min 4096 (filesz.toNat - 4096 * j) := by
    by_cases short : filesz - i < 4096
    · rw [if_pos short, difference]
      rw [lt_iff_toNat_lt, difference] at short
      change _ < 4096 at short
      omega
    · rw [if_neg short]
      rw [lt_iff_toNat_lt, difference] at short
      change ¬_ < 4096 at short
      change 4096 = _
      omega
  rw [← and_assoc]
  refine ⟨?_, count⟩
  have sum : (off + i).toNat = (off.toNat + 4096 * j) % 2 ^ 32 := by
    rw [UInt32.toNat_add, starts]
  unfold File.available at reached ⊢
  change 4096 * j ≤ _ at reached
  change _ ≤ 71680 at fits
  change _ = min 4096 (_ - 4096 * j) ∧
    ∀ t < min 4096 (_ - 4096 * j), _ = file.bytes[_ + (4096 * j + t)]?
  by_cases past : file.bytes.length < (off + i).toNat ∨
      2 ^ 32 ≤ (off + i).toNat +
        (if filesz - i < 4096 then filesz - i else 4096 : UInt32).toNat
  · rw [File.readi, if_pos past, getD_none, List.length_nil]
    rw [count, sum] at past
    exact ⟨by omega, by omega⟩
  · rw [File.readi, if_neg past, getD_some, List.length_drop, List.length_take, count, sum]
    rw [count, sum] at past
    refine ⟨by omega, fun t less => ?_⟩
    rw [List.getElem?_drop, List.getElem?_take_of_lt (by omega)]
    congr 1
    omega

/-- The loop of `loaduvm`, by what holds when `j` pages have been visited.  It goes on while the
file has all the bytes of a page. -/
theorem loaduvm_ensures (aligned : addr.toNat % pgsize = 0)
    (invariant : Nat → Memory × List Event → Prop)
    (turn : ∀ {j s va bytes}, va.toNat = (addr.toNat + pgsize * j) % 2 ^ 32 →
      pgsize * j < filesz.toNat → pgsize * j ≤ ip.available offset filesz →
      bytes.length = min pgsize (ip.available offset filesz - pgsize * j) →
      (∀ t < bytes.length, bytes[t]? = ip.bytes[offset.toNat + (pgsize * j + t)]?) →
      invariant j s →
      Ensures (loadPage d va bytes) s (fun _ s' => invariant (j + 1) s') fails)
    (initially : invariant 0 s) :
    Ensures (loaduvm d addr ip offset filesz) s
      (fun result s' =>
        (result = true ∧ ip.available offset filesz = filesz.toNat ∧
          invariant (pages filesz) s') ∨
        (result = false ∧ ip.available offset filesz < filesz.toNat ∧
          invariant (ip.available offset filesz / pgsize + 1) s')) fails := by
  have most : ip.available offset filesz ≤ 71680 :=
    (Nat.min_le_right ..).trans ((Nat.sub_le ..).trans ip.fits)
  have least : ip.available offset filesz ≤ filesz.toNat := Nat.min_le_left ..
  have loop : ∀ turns j i s, i.toNat = pgsize * j → j ≤ 18 → 19 < j + turns →
      (pgsize * j ≤ ip.available offset filesz ∨
        ip.available offset filesz = filesz.toNat ∧ j = pages filesz) → invariant j s →
      Ensures (loaduvmLoop d addr ip offset filesz turns i) s
        (fun result s' =>
          (result = true ∧ ip.available offset filesz = filesz.toNat ∧
            invariant (pages filesz) s') ∨
          (result = false ∧ ip.available offset filesz < filesz.toNat ∧
            invariant (ip.available offset filesz / pgsize + 1) s')) fails := by
    intro turns
    induction turns with
    | zero =>
      intro j i s _ small enough
      omega
    | succ turns induction =>
      intro j i s starts small enough reached holds
      rw [loaduvmLoop]
      by_cases more : i < filesz
      · have below := more
        rw [lt_iff_toNat_lt, starts] at below
        have within : pgsize * j ≤ ip.available offset filesz := by
          refine reached.elim id fun done => ?_
          have last : j = (filesz.toNat + 4095) / 4096 := done.2
          change 4096 * j < filesz.toNat at below
          omega
        obtain ⟨length, content, count⟩ := length_readi starts more within
        have va : (addr + i).toNat = (addr.toNat + pgsize * j) % 2 ^ 32 := by
          rw [UInt32.toNat_add, starts]
        have next : (i + 4096).toNat = pgsize * (j + 1) := by
          rw [UInt32.toNat_add, starts]
          change (4096 * j + 4096) % 2 ^ 32 = 4096 * (j + 1)
          omega
        rw [if_pos more]
        simp only [count]
        refine (turn va below within length (length ▸ content) holds).seq ?_
        intro _ s' holds'
        rw [length]
        change 4096 * j < filesz.toNat at below
        change 4096 * j ≤ _ at within
        by_cases full : min pgsize (ip.available offset filesz - pgsize * j) =
            min pgsize (filesz.toNat - pgsize * j)
        · rw [if_pos full]
          change min 4096 (_ - 4096 * j) = min 4096 (_ - 4096 * j) at full
          refine induction (j + 1) _ s' next (by omega) (by omega) ?_ holds'
          change 4096 * (j + 1) ≤ _ ∨ _ ∧ j + 1 = (filesz.toNat + 4095) / 4096
          omega
        · rw [if_neg full]
          change ¬min 4096 (_ - 4096 * j) = min 4096 (_ - 4096 * j) at full
          have last : ip.available offset filesz / pgsize = j := by
            change _ / 4096 = j
            omega
          refine .inr ⟨rfl, by omega, ?_⟩
          rw [last]
          exact holds'
      · rw [if_neg more]
        rw [lt_iff_toNat_lt, starts] at more
        change ¬4096 * j < filesz.toNat at more
        have all : j = pages filesz := by
          refine reached.elim (fun within => ?_) fun done => done.2
          change 4096 * j ≤ _ at within
          change j = (filesz.toNat + 4095) / 4096
          omega
        rw [← all]
        refine .inl ⟨rfl, ?_, holds⟩
        refine reached.elim (fun within => ?_) fun done => done.1
        change 4096 * j ≤ _ at within
        omega
  rw [loaduvm, if_neg (not_not.mpr aligned)]
  exact loop (2 ^ 20) 0 0 s rfl (Nat.zero_le _) (by decide) (.inl (Nat.zero_le _)) initially

/-- `loaduvm` writes to pages of the image only. -/
theorem loaduvm_rewrites (directory : Directory kernel reserved m d) :
    Ensures (loaduvm d addr ip offset filesz) (m, trace)
      (fun result s' =>
        (result = true ↔ ip.available offset filesz = filesz.toNat) ∧ Rewritten d m s'.1)
      fun _ => True := by
  by_cases aligned : addr.toNat % pgsize = 0
  · refine (loaduvm_ensures aligned (fun _ s' => Rewritten d m s'.1) ?_ (.refl d m)).weaken ?_
    · intro j s va bytes _ _ _ _ _ rewritten
      exact loadPage_ensures (rewritten.directory directory) (fun _ _ => rewritten)
        (fun _ _ _ _ more => rewritten.trans more) (fun _ => trivial) fun _ _ => trivial
    · rintro result s' (⟨rfl, all, rewritten⟩ | ⟨rfl, less, rewritten⟩)
      · exact ⟨iff_of_true rfl all, rewritten⟩
      · exact ⟨iff_of_false Bool.false_ne_true (Nat.ne_of_lt less), rewritten⟩
  · rw [loaduvm, if_pos aligned]
    exact trivial

theorem uva2ka_ensures {after : Option Nat → Memory → Prop}
    (usable : Accessible (m.entry d (vpn uva)) → after (some (frame (m.entry d (vpn uva)))) m)
    (refused : (m.table d (vpn uva / nptentries)).isSome = true →
      ¬Accessible (m.entry d (vpn uva)) → after none m)
    (missing : m.table d (vpn uva / nptentries) = none → fails .nullPte) :
    Ensures (uva2ka d uva) m after fails := by
  rw [uva2ka, ensures_bind, ensures_walkpgdir]
  cases found : m.table d (vpn uva / nptentries) with
  | none => exact missing found
  | some t =>
    have isSome : (m.table d (vpn uva / nptentries)).isSome = true := by
      rw [found]
      rfl
    simp only [map_some, ensures_bind, ensures_getEntry, ← Memory.entry_eq found]
    by_cases absent : m.entry d (vpn uva) &&& pteP = 0
    · rw [if_pos absent]
      exact refused isSome fun accessible => accessible.1 absent
    · rw [if_neg absent]
      by_cases supervisor : m.entry d (vpn uva) &&& pteU = 0
      · rw [if_pos supervisor]
        exact refused isSome fun accessible => accessible.2 supervisor
      · rw [if_neg supervisor]
        exact usable ⟨absent, supervisor⟩

theorem accessible_entry {f : Nat} (small : f < 2 ^ 20) :
    Accessible (v2p f ||| (pteW ||| pteU) ||| pteP) := by
  refine ⟨present_entry _ _, fun supervisor => ?_⟩
  have value : (v2p f ||| (pteW ||| pteU) ||| pteP).toNat = 4096 * f + 7 :=
    toNat_entry small (by decide)
  have bit : (v2p f ||| (pteW ||| pteU) ||| pteP).toNat &&& 2 ^ 2 = 0 := by
    rw [← UInt32.toNat_inj, UInt32.toNat_and] at supervisor
    exact supervisor
  have set : (4096 * f + 7).testBit 2 = true := by
    rw [Nat.testBit_eq_decide_div_mod_eq]
    exact decide_eq_true (by omega)
  rw [Nat.and_two_pow, value, set] at bit
  cases bit

def Supervised (m : Memory) (d : Nat) : Prop := ∀ v, userPages ≤ v → m.entry d v &&& pteU = 0

theorem Supervised.lt (supervised : Supervised m d) {v : Nat}
    (accessible : Accessible (m.entry d v)) : v < userPages := by
  by_contra above
  exact accessible.2 (supervised v (Nat.le_of_not_lt above))

theorem vpn_pgrounddown (va : UInt32) : vpn (pgrounddown va) = vpn va :=
  vpn_of_toNat (toNat_pgrounddown va)

/-- `copyout` writes to pages of the image only. -/
theorem copyout_rewrites (directory : Directory kernel reserved m d) (supervised : Supervised m d) :
    Ensures (copyout d va bytes) m (fun _ m' => Rewritten d m m') fun _ => True := by
  have loop : ∀ turns va bytes m', Rewritten d m m' →
      Ensures (copyoutLoop d turns va bytes) m' (fun _ m'' => Rewritten d m m'')
        fun _ => True := by
    intro turns
    induction turns with
    | zero => exact fun _ _ _ rewritten => rewritten
    | succ turns induction =>
      intro va bytes m' rewritten
      rw [copyoutLoop]
      by_cases empty : bytes = []
      · rw [if_pos empty]
        exact rewritten
      · rw [if_neg empty, ensures_bind]
        refine uva2ka_ensures (fun accessible => ?_) (fun _ _ => rewritten) fun _ => trivial
        have user : vpn (pgrounddown va) < userPages :=
          supervised.lt (rewritten.entries ▸ accessible)
        refine induction _ _ _ (rewritten.trans ?_)
        exact .setPage (rewritten.directory directory) user accessible.1 _
  exact loop _ va bytes m (.refl d m)

theorem pushArguments_rewrites (directory : Directory kernel reserved m d)
    (supervised : Supervised m d) {argc : Nat} {sp : UInt32} {argv : List Argument} :
    Ensures (pushArguments d argc sp argv) m (fun _ m' => Rewritten d m m')
      fun _ => True := by
  induction argv generalizing argc sp m with
  | nil => exact .refl d m
  | cons argument rest induction =>
    rw [pushArguments]
    split
    next => exact .refl d m
    next =>
      refine (copyout_rewrites directory supervised).seq ?_
      intro ok m' rewritten
      cases ok with
      | false => exact rewritten
      | true =>
        have supervised' : Supervised m' d := by
          rw [Supervised, rewritten.entries]
          exact supervised
        refine (induction (rewritten.directory directory) supervised').seq ?_
        intro pushed m'' more
        cases pushed with
        | none | some result => exact rewritten.trans more

theorem present_clear (pte : UInt32) : present (pte &&& ~~~pteU) ↔ present pte := by
  have same : ~~~pteU &&& pteP = pteP := by decide
  rw [present, present, UInt32.and_assoc, same]

theorem frame_clear (pte : UInt32) : frame (pte &&& ~~~pteU) = frame pte := by
  have same : ~~~pteU &&& ~~~(0xFFF : UInt32) = ~~~0xFFF := by decide
  rw [frame, frame, pteAddr, pteAddr, UInt32.and_assoc, same]

structure Guarded (kernel : Image) (reserved : Nat → Prop) (d : Nat) (uva : UInt32)
    (m m' : Memory) : Prop where
  directory : Directory kernel reserved m' d
  tables : m'.table d = m.table d
  entries : m'.entry d =
    Function.update (m.entry d) (vpn uva) (m.entry d (vpn uva) &&& ~~~pteU)
  list : m'.freelist = m.freelist
  kept : ∀ {g}, (∀ i, m.table d i ≠ some g) → m'.page g = m.page g

theorem Guarded.supervised {m' : Memory} (guarded : Guarded kernel reserved d uva m m')
    (supervised : Supervised m d) : Supervised m' d := by
  intro v above
  rw [guarded.entries, Function.update_apply]
  split
  next same =>
    have cleared : ~~~pteU &&& pteU = 0 := by decide
    rw [UInt32.and_assoc, cleared, UInt32.and_zero]
  next => exact supervised v above

theorem clearpteu_ensures (directory : Directory kernel reserved m d)
    (missing : m.table d (vpn uva / nptentries) = none → fails .clearpteu) :
    Ensures (clearpteu d uva) m (fun _ m' => Guarded kernel reserved d uva m m') fails := by
  rw [clearpteu, ensures_bind, ensures_walkpgdir]
  cases found : m.table d (vpn uva / nptentries) with
  | none => exact missing found
  | some t =>
    simp only [map_some, ensures_bind, ensures_getEntry, ← Memory.entry_eq found,
      ensures_setEntry]
    have notDirectory : t ≠ d := by
      rintro rfl
      exact directory.table_ne_directory _ found
    obtain ⟨tables, entries⟩ := Memory.entries_setEntryAt found
      (fun also => directory.table_inj also found) notDirectory
      (m.entry d (vpn uva) &&& ~~~pteU)
    refine ⟨directory.of_holds ?_ rfl, tables, entries, rfl, fun {g} other => ?_⟩
    · funext holder
      cases holder with
      | directory => rfl
      | table i => exact congrFun tables i
      | page v =>
        rw [Memory.holds, entries, Memory.holds]
        by_cases same : v = vpn uva
        · subst same
          simp only [Function.update_self, present_clear, frame_clear]
        · rw [Function.update_of_ne same]
    · apply Memory.page_setEntryAt_of_ne
      rintro rfl
      exact other _ found

end

def grownTo (sz newsz : UInt32) : UInt32 := if newsz < sz then sz else newsz

def withStack (sz : UInt32) : Nat :=
  if kernbase ≤ pgroundup sz + 2 * 4096 then pages sz else pages sz + 2

/-- The pages that the image of a file gets with enough memory; no more headers are read after one
that `exec` refuses. -/
def File.asked (ip : File) : Nat → UInt32 → UInt32 → Nat
  | 0, _, sz => withStack sz
  | n + 1, off, sz =>
    match ip.segment off with
    | none => pages sz
    | some ph =>
      if ph.type ≠ elfProgLoad then ip.asked n (off + 32) sz
      else if ph.memsz < ph.filesz then pages sz
      else if kernbase ≤ ph.vaddr + ph.memsz then pages sz
      else if grownTo sz (ph.vaddr + ph.memsz) = 0 then pages sz
      else if ip.available ph.off ph.filesz < ph.filesz.toNat then
        pages (grownTo sz (ph.vaddr + ph.memsz))
      else ip.asked n (off + 32) (grownTo sz (ph.vaddr + ph.memsz))

variable {sz off : UInt32}

theorem pages_mono {sz' : UInt32} (ordered : sz ≤ sz') : pages sz ≤ pages sz' := by
  rw [le_iff_toNat_le] at ordered
  change (sz.toNat + 4095) / 4096 ≤ (sz'.toNat + 4095) / 4096
  omega

theorem grownTo_lt {newsz bound : UInt32} (small : sz < bound) (limit : newsz < bound) :
    grownTo sz newsz < bound := by
  unfold grownTo
  split
  next => exact small
  next => exact limit

theorem pages_le_grownTo (sz newsz : UInt32) : pages sz ≤ pages (grownTo sz newsz) := by
  unfold grownTo
  split
  next => exact Nat.le_refl _
  next larger => exact pages_mono (UInt32.not_lt.mp larger)

theorem pages_le_withStack (sz : UInt32) : pages sz ≤ withStack sz := by
  unfold withStack
  split
  next => exact Nat.le_refl _
  next => exact Nat.le_add_right _ _

theorem File.pages_le_asked (ip : File) {n : Nat} : pages sz ≤ ip.asked n off sz := by
  induction n generalizing off sz with
  | zero => exact pages_le_withStack sz
  | succ n induction =>
    rw [File.asked]
    split
    next => exact Nat.le_refl _
    next ph _ =>
      split_ifs
      · exact induction
      · exact Nat.le_refl _
      · exact Nat.le_refl _
      · exact Nat.le_refl _
      · exact pages_le_grownTo ..
      · exact (pages_le_grownTo ..).trans induction

theorem File.pages_grownTo_le_asked (ip : File) (n : Nat) (sz : UInt32) {ph : Proghdr}
    (found : ip.segment off = some ph) (load : ¬ph.type ≠ elfProgLoad)
    (covers : ¬ph.memsz < ph.filesz) (limit : ¬kernbase ≤ ph.vaddr + ph.memsz) :
    pages (grownTo sz (ph.vaddr + ph.memsz)) ≤ ip.asked (n + 1) off sz := by
  rw [File.asked, found]
  dsimp only
  rw [if_neg load, if_neg covers, if_neg limit]
  split_ifs with nothing
  · rw [nothing]
    exact Nat.zero_le _
  · exact Nat.le_refl _
  · exact ip.pages_le_asked

theorem toNat_stackTop (small : sz < kernbase) :
    (pgroundup sz + 2 * 4096).toNat = pgsize * (pages sz + 2) := by
  have bound := pages_le (UInt32.le_of_lt small)
  rw [UInt32.toNat_add, toNat_pgroundup (UInt32.le_of_lt small)]
  change pages sz ≤ 0x80000 at bound
  change (4096 * pages sz + 8192) % 2 ^ 32 = 4096 * (pages sz + 2)
  omega

theorem pages_stack (small : sz < kernbase) :
    pgroundup sz ≤ pgroundup sz + 2 * 4096 ∧ pages (pgroundup sz) = pages sz ∧
      pages (pgroundup sz + 2 * 4096) = pages sz + 2 := by
  have rounded : (pgroundup sz).toNat = 4096 * pages sz := toNat_pgroundup (UInt32.le_of_lt small)
  have sum : (pgroundup sz + 2 * 4096).toNat = 4096 * (pages sz + 2) := toNat_stackTop small
  refine ⟨?_, ?_, ?_⟩
  · rw [le_iff_toNat_le, rounded, sum]
    omega
  · change ((pgroundup sz).toNat + 4095) / 4096 = _
    omega
  · change ((pgroundup sz + 2 * 4096).toNat + 4095) / 4096 = _
    omega

end StraceXv6.Kernel.Vm
