import StraceXv6.Kernel.Vm.StackContents

namespace StraceXv6.Kernel.Vm

open List Data Data.Command

/-! What a new program finds in its memory below the stack. -/

def File.segments (file : File) : Nat → UInt32 → List Proghdr
  | 0, _ => []
  | n + 1, off =>
    match file.segment off with
    | none => []
    | some ph =>
      if ph.type = elfProgLoad then ph :: file.segments n (off + 32)
      else file.segments n (off + 32)

namespace Proghdr

def stop (ph : Proghdr) : Nat := ph.vaddr.toNat + ph.memsz.toNat

def Covers (ph : Proghdr) (a : UInt32) : Prop :=
  ph.vaddr.toNat ≤ a.toNat ∧ a.toNat < ph.vaddr.toNat + ph.filesz.toNat

end Proghdr

/-- The segments begin at pages, one after the other, and end below `KERNBASE`. -/
def Orderly : Nat → List Proghdr → Prop
  | _, [] => True
  | start, ph :: rest =>
    ph.vaddr.toNat % pgsize = 0 ∧ start ≤ ph.vaddr.toNat ∧ ph.stop < kernbase.toNat ∧
      Orderly ph.stop rest

def imageEnd : Nat → List Proghdr → Nat
  | start, [] => start
  | _, ph :: rest => imageEnd ph.stop rest

def Imaged (ip : File) (segments : List Proghdr) (m : Memory) (d k : Nat) : Prop :=
  ∀ a, vpn a < k → present (m.entry d (vpn a)) → Accessible (m.entry d (vpn a)) ∧
    (∀ ph ∈ segments, ph.Covers a →
      ip.bytes[ph.off.toNat + (a.toNat - ph.vaddr.toNat)]? = some (m.byte d a)) ∧
    ((∀ ph ∈ segments, ¬ph.Covers a) → m.byte d a = 0)

section

variable {kernel : Image} {reserved : Nat → Prop} {m m' : Memory} {d : Nat} {ip : File}
  {trace : List Event}

structure Filling (ip : File) (ph : Proghdr) (m : Memory) (d n : Nat) (m' : Memory) : Prop where
  rewritten : Rewritten d m m'
  filled : ∀ a, vpn a < userPages → present (m.entry d (vpn a)) → ph.vaddr.toNat ≤ a.toNat →
    a.toNat < ph.vaddr.toNat + n →
    ip.bytes[ph.off.toNat + (a.toNat - ph.vaddr.toNat)]? = some (m'.byte d a)
  others : ∀ a, vpn a < userPages → present (m.entry d (vpn a)) →
    a.toNat < ph.vaddr.toNat ∨ ph.vaddr.toNat + n ≤ a.toNat → m'.byte d a = m.byte d a

variable {ph : Proghdr} {segments : List Proghdr} {sz : UInt32}

theorem Filling.next {j : Nat} {va : UInt32} {bytes : List UInt8} {m'' : Memory}
    (filling : Filling ip ph m d (pgsize * j) m') (directory : Directory kernel reserved m d)
    (isVa : va.toNat = ph.vaddr.toNat + pgsize * j) (aligned : ph.vaddr.toNat % pgsize = 0)
    (few : bytes.length ≤ pgsize)
    (content : ∀ t < bytes.length, bytes[t]? = ip.bytes[ph.off.toNat + (pgsize * j + t)]?)
    (user : va < kernbase) (mapped : present (m'.entry d (vpn va)))
    (written : m'' = m'.setPage (frame (m'.entry d (vpn va)))
      (overwrite (m'.page (frame (m'.entry d (vpn va)))) 0 bytes))
    (rewritten : Rewritten d m' m'') : Filling ip ph m d (pgsize * j + bytes.length) m'' := by
  change _ = _ + 4096 * j at isVa
  change _ % 4096 = 0 at aligned
  change _ ≤ 4096 at few
  have elsewhere : ∀ a, vpn a < userPages → present (m.entry d (vpn a)) → vpn a ≠ vpn va →
      m''.byte d a = m'.byte d a := by
    intro a inside present_ other
    rw [Memory.byte, Memory.byte, rewritten.entries, written, Memory.page_setPage_of_ne]
    rw [filling.rewritten.entries] at mapped ⊢
    exact fun same => other (directory.frame_inj inside present_ (vpn_lt_userPages user) mapped same)
  have here : ∀ {a}, vpn a = vpn va →
      m''.byte d a = (bytes[a.toNat % 4096]?).getD (m'.byte d a) := by
    intro a same
    rw [Memory.byte, Memory.byte, rewritten.entries, written, same, Memory.page_setPage_self,
      overwrite, if_pos (Nat.zero_le _)]
    rfl
  refine ⟨filling.rewritten.trans rewritten, fun a inside present_ low high => ?_,
    fun a inside present_ outside => ?_⟩
  · by_cases old : a.toNat < ph.vaddr.toNat + 4096 * j
    · rw [elsewhere a inside present_, filling.filled a inside present_ low old]
      change a.toNat / 4096 ≠ va.toNat / 4096
      omega
    · change _ < _ + (4096 * j + _) at high
      have new := content (a.toNat % 4096) (by omega)
      rw [List.getElem?_eq_getElem (by omega)] at new
      have place : a.toNat - ph.vaddr.toNat = pgsize * j + a.toNat % 4096 := by
        change _ = 4096 * j + _
        omega
      rw [here, place, ← new, List.getElem?_eq_getElem (by omega), Option.getD_some]
      change a.toNat / 4096 = va.toNat / 4096
      omega
  · change _ ∨ _ + (4096 * j + _) ≤ _ at outside
    rw [← filling.others a inside present_ (outside.imp_right (by change _ → _ + 4096 * j ≤ _; omega))]
    by_cases same : vpn a = vpn va
    · rw [here same, List.getElem?_eq_none, Option.getD_none]
      change a.toNat / 4096 = va.toNat / 4096 at same
      omega
    · exact elsewhere a inside present_ same

theorem loaduvm_fills (directory : Directory kernel reserved m d)
    (aligned : ph.vaddr.toNat % pgsize = 0) (below : ph.vaddr.toNat + ph.filesz.toNat < 2 ^ 32) :
    Ensures (loaduvm d ph.vaddr ip ph.off ph.filesz) (m, trace)
      (fun result s' => result = true → Filling ip ph m d ph.filesz.toNat s'.1)
      fun _ => True := by
  have least : ip.available ph.off ph.filesz ≤ ph.filesz.toNat := Nat.min_le_left ..
  refine (loaduvm_ensures aligned
    (fun j s' => Filling ip ph m d (min (pgsize * j) (ip.available ph.off ph.filesz)) s'.1)
    ?_ ?_).weaken ?_
  · intro j s va bytes isVa more reached length content filling
    rw [Nat.min_eq_left reached] at filling
    have next : min (pgsize * (j + 1)) (ip.available ph.off ph.filesz) =
        pgsize * j + bytes.length := by
      rw [length, Nat.mul_succ]
      omega
    rw [next]
    refine loadPage_ensures (filling.rewritten.directory directory) (fun empty _ => ?_)
      (fun _ user mapped written rewritten => ?_) (fun _ => trivial) fun _ _ => trivial
    · rw [empty]
      exact filling
    · refine filling.next directory ?_ aligned (by omega) content user mapped written rewritten
      rw [isVa, Nat.mod_eq_of_lt (by omega)]
  · refine ⟨.refl d m, fun a _ _ low high => ?_, fun _ _ _ _ => rfl⟩
    rw [Nat.mul_zero, Nat.zero_min] at high
    omega
  · rintro result s' (⟨rfl, all, filling⟩ | ⟨rfl, _⟩) isTrue
    · rw [all, Nat.min_eq_right] at filling
      · exact filling
      · change _ ≤ 4096 * ((ph.filesz.toNat + 4095) / 4096)
        omega
    · cases isTrue

theorem Imaged.added {newsz : UInt32} (imaged : Imaged ip segments m d (pages sz))
    (ends : ∀ ph ∈ segments, ph.vaddr.toNat + ph.filesz.toNat ≤ sz.toNat)
    (added : Added d (pages sz) (pages newsz) m m') : Imaged ip segments m' d (pages newsz) := by
  intro a inside mapped
  by_cases old : vpn a < pages sz
  · rw [added.entries old] at mapped ⊢
    have same : m'.byte d a = m.byte d a := by
      rw [Memory.byte, Memory.byte, added.entries old, added.content old mapped]
    rw [same]
    exact imaged a old mapped
  · obtain ⟨accessible, zeros⟩ := added.zero (Nat.le_of_not_lt old) inside mapped
    refine ⟨accessible, fun ph member covers => ?_, fun _ => by rw [Memory.byte, zeros]⟩
    have before := ends ph member
    have upper := covers.2
    change ¬a.toNat / 4096 < (sz.toNat + 4095) / 4096 at old
    omega

theorem Imaged.filled {k : Nat} (imaged : Imaged ip segments m d k) (user : k ≤ userPages)
    (ends : ∀ other ∈ segments, other.vaddr.toNat + other.filesz.toNat ≤ ph.vaddr.toNat)
    (filling : Filling ip ph m d ph.filesz.toNat m') : Imaged ip (segments ++ [ph]) m' d k := by
  intro a inside mapped
  rw [filling.rewritten.entries] at mapped ⊢
  obtain ⟨accessible, covered, bare⟩ := imaged a inside mapped
  simp only [mem_append, mem_singleton, or_imp, forall_and, forall_eq]
  refine ⟨accessible, ?_⟩
  by_cases covers : ph.Covers a
  · refine ⟨⟨fun other member also => ?_, fun _ => ?_⟩, fun none => absurd covers none.2⟩
    · have before := ends other member
      have upper := also.2
      have lower := covers.1
      omega
    · exact filling.filled a (inside.trans_le user) mapped covers.1 covers.2
  · have same := filling.others a (inside.trans_le user) mapped (by
      rw [Proghdr.Covers] at covers
      omega)
    rw [same]
    exact ⟨⟨covered, fun also => absurd also covers⟩, fun none => bare none.1⟩

structure Loaded (ip : File) (segments : List Proghdr) (sz : UInt32) (m : Memory) (d : Nat) :
    Prop where
  small : sz < kernbase
  ends : ∀ ph ∈ segments, ph.vaddr.toNat + ph.filesz.toNat ≤ sz.toNat
  imaged : Imaged ip segments m d (pages sz)

/-- The loop over the program headers, when `segments` are loaded. -/
theorem loadSegments_imaged {initial : Memory} {n : Nat} {off : UInt32}
    (held : Held kernel initial (pages sz) m d) (orderly : Orderly sz.toNat (ip.segments n off))
    (loaded : Loaded ip segments sz m d) :
    Ensures (loadSegments kernel d ip n off sz) (m, trace)
      (fun result s => ∀ sz', result = some sz' →
        sz'.toNat = imageEnd sz.toNat (ip.segments n off) ∧
          Loaded ip (segments ++ ip.segments n off) sz' s.1 d)
      fun _ => True := by
  induction n generalizing off sz segments m trace with
  | zero =>
    rintro _ ⟨⟩
    rw [File.segments, append_nil]
    exact ⟨rfl, loaded⟩
  | succ n induction =>
    rw [loadSegments]
    rw [File.segments] at orderly ⊢
    cases found : ip.segment off with
    | none => exact fun _ isSome => by cases isSome
    | some ph =>
      rw [found] at orderly
      dsimp only at orderly ⊢
      by_cases load : ph.type = elfProgLoad
      · rw [if_neg (not_not.mpr load)]
        rw [if_pos load] at orderly ⊢
        obtain ⟨aligned, starts, below, rest⟩ := orderly
        split
        next => exact fun _ isSome => by cases isSome
        next long =>
          rw [UInt32.lt_iff_toNat_lt] at long
          change ph.vaddr.toNat + ph.memsz.toNat < 0x80000000 at below
          have top : (ph.vaddr + ph.memsz).toNat = ph.stop := by
            rw [UInt32.toNat_add, Proghdr.stop]
            exact Nat.mod_eq_of_lt (by omega)
          rw [Proghdr.stop] at top
          have limit : ph.vaddr + ph.memsz < kernbase := by
            rw [UInt32.lt_iff_toNat_lt, top]
            exact below
          have ordered : sz ≤ ph.vaddr + ph.memsz := by
            rw [UInt32.le_iff_toNat_le, top]
            omega
          rw [imageEnd]
          rw [← show (ph.vaddr + ph.memsz).toNat = ph.stop from top] at rest ⊢
          generalize ph.vaddr + ph.memsz = newsz at top limit ordered rest ⊢
          rw [ensures_bind, ensures_zoom]
          refine (held.allocuvm ordered limit).weaken ?_
          rintro result m₁ (⟨rfl, held₁, added⟩ | ⟨rfl, _⟩)
          · split
            next => exact fun _ isSome => by cases isSome
            next =>
              rw [ensures_bind, ensures_emit]
              obtain ⟨reserved, directory, _⟩ := held₁.settled
              refine (loaduvm_fills directory aligned (by omega)).seq ?_
              rintro result ⟨m₂, trace'⟩ fills
              cases result with
              | false => exact fun _ isSome => by cases isSome
              | true =>
                have filling := fills rfl
                rw [if_pos rfl, ensures_bind, ensures_emit, append_cons]
                refine induction (held₁.rewritten filling.rewritten) rest ⟨limit, ?_,
                  (loaded.imaged.added loaded.ends added).filled (pages_le (UInt32.le_of_lt limit))
                    (fun other member => (loaded.ends other member).trans starts) filling⟩
                intro other member
                rcases mem_append.mp member with old | new
                · have before := loaded.ends other old
                  omega
                · rw [mem_singleton.mp new]
                  omega
          · rw [if_pos rfl]
            exact fun _ isSome => by cases isSome
      · rw [if_pos load]
        rw [if_neg load] at orderly ⊢
        exact induction held orderly loaded

end

end StraceXv6.Kernel.Vm
