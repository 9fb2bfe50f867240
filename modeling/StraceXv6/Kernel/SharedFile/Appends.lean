import StraceXv6.Data.Signed
import StraceXv6.Kernel.SharedFile.Machine

namespace StraceXv6.Kernel.SharedFile

open List Function Data
open Kernel.Fs (blit byteAt_blit filewriteMax)

/-! The file holds the buffers one after the other. -/

namespace Phase

def locks : Phase → Bool
  | .locked .. | .copying .. | .wrote .. | .advanced .. => true
  | _ => false

def grown : Phase → Nat
  | .wrote _ _ r => r.toInt.toNat
  | _ => 0

def pending : Phase → List (List UInt8)
  | .idle | .advanced .. | .unlocked .. => []
  | .turn bytes i => if bytes.length ≤ i ∧ 0 < i then [] else [bytes]
  | .begun bytes _ | .locked bytes _ | .copying bytes _ _ _ _ | .wrote bytes _ _ => [bytes]

def fails : Phase → Bool
  | .wrote _ _ r | .advanced _ _ r | .unlocked _ _ r => decide (r < 0)
  | _ => false

/-- What a phase says about the buffer, of which all is written in one turn, and about the bytes
of the file from `start` on. -/
def Tells (start : Nat) (byte : Nat → UInt8) : Phase → Prop
  | .idle => True
  | .turn bytes i => bytes.length ≤ filewriteMax ∧ (i = 0 ∨ i = bytes.length)
  | .begun bytes i | .locked bytes i => bytes.length ≤ filewriteMax ∧ bytes ≠ [] ∧ i = 0
  | .copying bytes i n1 off tot =>
    bytes.length ≤ filewriteMax ∧ bytes ≠ [] ∧ i = 0 ∧ n1 = bytes.length ∧
      off.toNat = start + tot ∧ tot ≤ n1 ∧ start + n1 ≤ maxfile * bsize ∧
      ∀ k < tot, byte (start + k) = bytes.getD k 0
  | .wrote bytes i r =>
    bytes.length ≤ filewriteMax ∧ bytes ≠ [] ∧ i = 0 ∧ (r = -1 ∨ r.toInt = bytes.length ∧
      start + bytes.length ≤ maxfile * bsize ∧
      ∀ k < bytes.length, byte (start + k) = bytes.getD k 0)
  | .advanced bytes i r | .unlocked bytes i r =>
    bytes.length ≤ filewriteMax ∧ bytes ≠ [] ∧ i = 0 ∧ (r = -1 ∨ r.toInt = bytes.length)

variable {phase : Phase}

theorem Tells.unlocked {start start' : Nat} {byte byte' : Nat → UInt8}
    (tells : phase.Tells start byte) (free : phase.locks = false) : phase.Tells start' byte' := by
  cases phase with
  | idle | turn | begun | unlocked => exact tells
  | locked | copying | wrote | advanced => exact absurd free (by simp [locks])

theorem grown_of_unlocked (free : phase.locks = false) : phase.grown = 0 := by
  cases phase with
  | wrote => exact absurd free (by simp [locks])
  | _ => rfl

end Phase

def placedBy {P : Type} [DecidableEq P] (placed : List (P × List UInt8)) (p : P) :
    List (List UInt8) :=
  (placed.filter fun piece => piece.1 = p).map Prod.snd

section

variable {P : Type} [DecidableEq P] (placed : List (P × List UInt8)) (p : P) (piece : List UInt8)

@[simp]
theorem placedBy_append_self :
    placedBy (placed ++ [(p, piece)]) p = placedBy placed p ++ [piece] := by
  simp [placedBy]

@[simp]
theorem placedBy_append_of_ne {q : P} (other : q ≠ p) :
    placedBy (placed ++ [(p, piece)]) q = placedBy placed q := by
  simp [placedBy, Ne.symm other]

end

namespace State

variable {P : Type} {s s' : State P} {p : P}

def text (s : State P) : List UInt8 := s.placed.flatMap Prod.snd

def byte (s : State P) (o : Nat) : UInt8 := byteAt (s.block (o / bsize)) (o % bsize)

def content (s : State P) : List UInt8 := (List.range s.size.toNat).map s.byte

@[simp]
theorem text_place (piece : List UInt8) : (s.place p piece).text = s.text ++ piece := by
  simp [text, place]

theorem byte_blit {off : Nat} {src : Nat → UInt8} {m : Nat} (small : m ≤ bsize - off % bsize)
    (block : s'.block = update s.block (off / bsize)
      (blit (s.block (off / bsize)) (off % bsize) src m)) (o : Nat) :
    s'.byte o = if off ≤ o ∧ o < off + m then src (o - off) else s.byte o := by
  have whole := Nat.div_add_mod off bsize
  have whole' := Nat.div_add_mod o bsize
  have inside : o % bsize < bsize := Nat.mod_lt _ (by decide)
  rw [byte, block]
  by_cases same : o / bsize = off / bsize
  · rw [same, update_self, byteAt_blit _ _ _ inside]
    rw [same] at whole'
    have range : off % bsize ≤ o % bsize ∧ o % bsize < off % bsize + m ↔
        off ≤ o ∧ o < off + m := by omega
    simp only [range]
    rw [byte, same, show o % bsize - off % bsize = o - off by omega]
  · rw [update_of_ne same, if_neg]
    · rfl
    · intro range
      change m ≤ 512 - off % 512 at small
      change ¬o / 512 = off / 512 at same
      omega

variable [DecidableEq P]

/-- The buffers of `p` that are written and the one it is writing are those of its calls, as long
as none has failed. -/
def Accounted (s : State P) (p : P) (phase : Phase) : Prop :=
  (∀ result, (p, result) ∈ s.returned → result ≠ -1) → phase.fails = false →
    placedBy s.placed p ++ phase.pending = s.calls p

structure Serial (s : State P) : Prop where
  fits : s.text.length ≤ maxfile * bsize
  content : ∀ o < s.text.length, s.byte o = s.text.getD o 0
  off : s.off.toNat = s.text.length
  size : s.size.toNat = s.text.length + (s.owner.elim 0 fun p => (s.phase p).grown)
  owned : ∀ p, (s.phase p).locks = true ↔ s.owner = some p
  tells : ∀ p, (s.phase p).Tells s.text.length s.byte
  own : ∀ p, s.Accounted p (s.phase p)

theorem Serial.created (block : Nat → Block) : Serial (State.created (P := P) block) := by
  refine ⟨Nat.zero_le _, ?_, rfl, rfl, ?_, fun _ => trivial, fun _ _ _ => rfl⟩
  · intro o beyond
    exact absurd beyond (Nat.not_lt_zero o)
  · intro q
    simp [State.created, Phase.locks]

variable {phase : Phase} {q : P} {owner : Option P} {bytes : List UInt8} {i : Nat} {r : Int32}

theorem Accounted.kept (accounted : s.Accounted q phase) (calls : s'.calls q = s.calls q)
    (placed : placedBy s'.placed q = placedBy s.placed q)
    (returned : ∀ result ∈ s.returned, result ∈ s'.returned) : s'.Accounted q phase := by
  intro succeeded goes
  rw [placed, calls]
  exact accounted (fun result member => succeeded result (returned _ member)) goes

theorem Serial.others_unlocked (serial : Serial s) (held : (s.phase p).locks = true)
    (other : q ≠ p) : (s.phase q).locks = false := by
  rw [Bool.eq_false_iff]
  intro locks
  have mine := (serial.owned p).mp held
  rw [(serial.owned q).mp locks] at mine
  exact other (Option.some.inj mine)

inductive Handed (p : P) (before : Phase) : Option P → Option P → Phase → Prop
  | kept (owner : Option P) {phase : Phase} (same : phase.locks = before.locks) :
      Handed p before owner owner phase
  | locked {phase : Phase} (locks : phase.locks = true) : Handed p before none (some p) phase
  | unlocked {phase : Phase} (free : phase.locks = false) : Handed p before (some p) none phase

theorem Serial.owned_update (serial : Serial s)
    (handed : Handed p (s.phase p) s.owner owner phase) (q : P) :
    (update s.phase p phase q).locks = true ↔ owner = some q := by
  have before := serial.owned
  revert q
  rw [forall_update_iff s.phase fun q phase => phase.locks = true ↔ owner = some q]
  generalize s.owner = holder at handed before
  cases handed with
  | kept _ same =>
    refine ⟨?_, fun q _ => before q⟩
    rw [same]
    exact before p
  | locked locks =>
    refine ⟨by simp [locks], ?_⟩
    intro q other
    simp [before q, Ne.symm other]
  | unlocked free =>
    refine ⟨by simp [free], ?_⟩
    intro q other
    simp [before q, Ne.symm other]

theorem Serial.quiet (serial : Serial s) (block : s'.block = s.block) (size : s'.size = s.size)
    (off : s'.off = s.off) (text : s'.text = s.text) (phases : s'.phase = update s.phase p phase)
    (handed : Handed p (s.phase p) s.owner s'.owner phase)
    (grown : (s.phase p).grown = 0 ∧ phase.grown = 0) (tells : phase.Tells s.text.length s.byte)
    (mine : s'.Accounted p phase) (others : ∀ q, q ≠ p → s'.Accounted q (s.phase q)) :
    Serial s' := by
  have bytes : s'.byte = s.byte := by
    funext o
    rw [byte, byte, block]
  have lengths : ∀ q, (s'.phase q).grown = (s.phase q).grown := by
    rw [phases,
      forall_update_iff s.phase fun q phase => phase.grown = (s.phase q).grown]
    exact ⟨grown.2.trans grown.1.symm, fun _ _ => rfl⟩
  refine ⟨text ▸ serial.fits, ?_, ?_, ?_, ?_, ?_, ?_⟩
  · rw [text, bytes]
    exact serial.content
  · rw [off, text]
    exact serial.off
  · rw [size, text, serial.size]
    simp only [lengths]
    generalize s.owner = before, s'.owner = after at handed
    cases handed with
    | kept => rfl
    | locked => exact congrArg _ grown.1.symm
    | unlocked => exact congrArg _ grown.1
  · rw [phases]
    exact serial.owned_update handed
  · rw [phases, text, bytes,
      forall_update_iff s.phase fun _ phase => phase.Tells s.text.length s.byte]
    exact ⟨tells, fun q _ => serial.tells q⟩
  · rw [phases, forall_update_iff s.phase s'.Accounted]
    exact ⟨mine, others⟩

theorem Serial.pass (serial : Serial s) (handed : Handed p (s.phase p) s.owner owner phase)
    (grown : (s.phase p).grown = 0 ∧ phase.grown = 0) (tells : phase.Tells s.text.length s.byte)
    (mine : phase.fails = false → (s.phase p).fails = false ∧ phase.pending = (s.phase p).pending) :
    Serial ({ s with owner := owner }.setPhase p phase) := by
  refine serial.quiet rfl rfl rfl rfl rfl handed grown tells ?_ fun q _ => serial.own q
  intro succeeded goes
  rw [(mine goes).2]
  exact serial.own p succeeded (mine goes).1

theorem Serial.write (serial : Serial s) (idle : s.phase p = .idle)
    (small : bytes.length ≤ filewriteMax) :
    Serial { s.setPhase p (.turn bytes 0) with
      calls := update s.calls p (s.calls p ++ [bytes]) } := by
  have before := serial.own p
  refine serial.quiet (p := p) rfl rfl rfl rfl rfl ?_ ?_ ?_ ?_ ?_
  · exact .kept _ (by rw [idle]; rfl)
  · exact ⟨by rw [idle]; rfl, rfl⟩
  · exact ⟨small, .inl rfl⟩
  · intro succeeded _
    have earlier := before succeeded (by rw [idle]; rfl)
    rw [idle] at earlier
    change placedBy s.placed p ++ [] = s.calls p at earlier
    rw [append_nil] at earlier
    change placedBy s.placed p ++ Phase.pending (.turn bytes 0) =
      update s.calls p (s.calls p ++ [bytes]) p
    rw [update_self, earlier]
    simp [Phase.pending]
  · intro q other
    exact (serial.own q).kept (update_of_ne other _ _) rfl fun _ member => member

theorem Serial.conclude (serial : Serial s) (free : (s.phase p).locks = false)
    (ends : i ≠ bytes.length ∨
      (s.phase p).fails = false ∧ (s.phase p).pending = if bytes.isEmpty then [bytes] else []) :
    Serial (s.conclude p bytes i) := by
  have unlocked : Handed p (s.phase p) s.owner s.owner .idle := .kept _ free.symm
  have grown : (s.phase p).grown = 0 ∧ Phase.grown .idle = 0 :=
    ⟨Phase.grown_of_unlocked free, rfl⟩
  have before := serial.own
  unfold State.conclude
  generalize decided : (if i = bytes.length then Int32.ofNat bytes.length else -1) = result
  -- only a call whose buffer is written has something to account for
  have complete : result ≠ -1 →
      (s.phase p).fails = false ∧ (s.phase p).pending = if bytes.isEmpty then [bytes] else [] := by
    intro succeeded
    refine ends.resolve_left ?_
    intro short
    rw [if_neg short] at decided
    exact succeeded decided.symm
  by_cases empty : bytes.isEmpty = true
  · rw [if_pos empty]
    refine serial.quiet rfl rfl rfl ?_ rfl unlocked grown trivial ?_ ?_
    · change (s.place p []).text = s.text
      simp
    · intro succeeded _
      have fine := complete (succeeded result (by simp [finish]))
      have mine := before p (fun earlier member => succeeded earlier (by
        simp [finish, setPhase, place, member])) fine.1
      rw [fine.2, if_pos empty, isEmpty_iff.mp empty] at mine
      change placedBy (s.placed ++ [(p, [])]) p ++ [] = s.calls p
      rw [placedBy_append_self, append_nil]
      exact mine
    · intro q other
      exact (before q).kept rfl (placedBy_append_of_ne _ _ _ other) fun _ member =>
        mem_append_left _ member
  · rw [if_neg empty]
    refine serial.quiet rfl rfl rfl rfl rfl unlocked grown trivial ?_ ?_
    · intro succeeded _
      have fine := complete (succeeded result (by simp [finish]))
      have mine := before p (fun earlier member => succeeded earlier (by
        simp [finish, setPhase, member])) fine.1
      rw [fine.2, if_neg empty] at mine
      exact mine
    · intro q _
      exact (before q).kept rfl rfl fun _ member => mem_append_left _ member

theorem turnSize_zero (small : bytes.length ≤ filewriteMax) : turnSize bytes 0 = bytes.length := by
  rw [turnSize, Nat.sub_zero, Nat.min_eq_left small]

theorem Serial.writei (serial : Serial s) (now : s.phase p = .locked bytes i) :
    Serial (s.writei p bytes i) := by
  have tells := serial.tells p
  rw [now] at tells
  obtain ⟨small, filled, rfl⟩ := tells
  have fails : Serial (s.setPhase p (.wrote bytes 0 (-1))) := by
    refine serial.pass (.kept _ ?_) ?_ ?_ ?_
    · rw [now]
      rfl
    · rw [now]
      exact ⟨rfl, rfl⟩
    · exact ⟨small, filled, rfl, .inl rfl⟩
    · intro goes
      cases goes
  unfold State.writei
  rw [turnSize_zero small]
  dsimp only
  have short : bytes.length ≤ 6656 := small
  have begins := serial.off
  have fits : s.text.length ≤ 71680 := serial.fits
  split
  · exact fails
  · split
    · exact fails
    · next inside =>
        have last : s.text.length + bytes.length ≤ maxfile * bsize := by
          rw [UInt32.lt_iff_toNat_lt, UInt32.toNat_add, begins] at inside
          simp only [UInt32.toNat_ofNat'] at inside
          change ¬71680 % 2 ^ 32 < _ at inside
          change _ ≤ 71680
          omega
        refine serial.pass (.kept _ ?_) ?_ ?_ ?_
        · rw [now]
          rfl
        · rw [now]
          exact ⟨rfl, rfl⟩
        · refine ⟨small, filled, rfl, rfl, begins, Nat.zero_le _, last, ?_⟩
          intro k beyond
          exact absurd beyond (Nat.not_lt_zero k)
        · intro _
          rw [now]
          exact ⟨rfl, rfl⟩

theorem Serial.extend (serial : Serial s) (locks : (s.phase p).locks = true)
    (bytes : ∀ o < s.text.length, s'.byte o = s.byte o) (off : s'.off = s.off)
    (size : s'.size.toNat = s.text.length + phase.grown) (placed : s'.placed = s.placed)
    (calls : s'.calls = s.calls) (returned : s'.returned = s.returned)
    (owner : s'.owner = s.owner) (phases : s'.phase = update s.phase p phase)
    (still : phase.locks = true) (tells : phase.Tells s.text.length s'.byte)
    (mine : phase.fails = false → (s.phase p).fails = false ∧ phase.pending = (s.phase p).pending) :
    Serial s' := by
  have text : s'.text = s.text := by rw [State.text, State.text, placed]
  have accounted : ∀ q phase, s'.Accounted q phase ↔ s.Accounted q phase := by
    intro q phase
    rw [Accounted, Accounted, placed, calls, returned]
  refine ⟨text ▸ serial.fits, ?_, ?_, ?_, ?_, ?_, ?_⟩
  · intro o inside
    rw [text] at inside ⊢
    rw [bytes o inside, serial.content o inside]
  · rw [off, text, serial.off]
  · rw [size, text, owner, (serial.owned p).mp locks, phases]
    change _ = _ + (update s.phase p phase p).grown
    rw [update_self]
  · rw [phases, owner]
    exact serial.owned_update (.kept _ (still.trans locks.symm))
  · rw [phases, text,
      forall_update_iff s.phase fun _ phase => phase.Tells s.text.length s'.byte]
    exact ⟨tells, fun q other => (serial.tells q).unlocked (serial.others_unlocked locks other)⟩
  · rw [phases, forall_update_iff s.phase s'.Accounted]
    simp only [accounted]
    refine ⟨?_, fun q _ => serial.own q⟩
    intro succeeded goes
    rw [(mine goes).2]
    exact serial.own p succeeded (mine goes).1

/-- A turn of the loop of `writei` adds the next bytes of the buffer. -/
theorem Serial.copy (serial : Serial s) {n1 tot : Nat} {off : UInt32}
    (now : s.phase p = .copying bytes i n1 off tot) : Serial (s.copy p bytes i n1 off tot) := by
  have tells := serial.tells p
  have locks : (s.phase p).locks = true := by rw [now]; rfl
  have size := serial.size
  rw [(serial.owned p).mp locks] at size
  change _ = _ + (s.phase p).grown at size
  rw [now] at tells size
  change _ = _ + 0 at size
  obtain ⟨small, filled, rfl, rfl, begins, within, last, copied⟩ := tells
  have short : bytes.length ≤ 6656 := small
  have room : s.text.length + bytes.length ≤ 71680 := last
  have mine : ∀ phase : Phase, phase.fails = false → phase.pending = [bytes] →
      phase.fails = false → (s.phase p).fails = false ∧ phase.pending = (s.phase p).pending := by
    intro phase _ pending _
    rw [now]
    exact ⟨rfl, pending⟩
  unfold State.copy
  dsimp only
  split
  · next more =>
      set m := min (bytes.length - tot) (bsize - off.toNat % bsize) with piece
      have fits : m ≤ bsize - off.toNat % bsize := Nat.min_le_right _ _
      have rest : m ≤ bytes.length - tot := Nat.min_le_left _ _
      set src : Nat → UInt8 := fun k => (bytes.drop (0 + tot)).getD k 0
      have written : ∀ o, State.byte { s with
          block := update s.block (off.toNat / bsize)
            (blit (s.block (off.toNat / bsize)) (off.toNat % bsize) src m) } o =
          if off.toNat ≤ o ∧ o < off.toNat + m then src (o - off.toNat) else s.byte o :=
        byte_blit fits rfl
      refine serial.extend locks ?_ rfl ?_ rfl rfl rfl rfl rfl rfl ?_ (mine _ rfl rfl)
      · intro o inside
        refine (written o).trans (if_neg ?_)
        omega
      · exact size
      · refine ⟨small, filled, rfl, rfl, ?_, by omega, last, ?_⟩
        · rw [UInt32.toNat_add, UInt32.toNat_ofNat', begins]
          omega
        · intro k below
          refine (written _).trans ?_
          rw [begins]
          split
          · dsimp only [src]
            rw [getD_eq_getElem?_getD, List.getElem?_drop, getD_eq_getElem?_getD]
            congr 2
            omega
          · exact copied k (by omega)
  · next all =>
      have whole : tot = bytes.length := by omega
      have positive : 0 < bytes.length := length_pos_iff.mpr filled
      have result : (Int32.ofNat bytes.length).toInt = bytes.length :=
        Int32.toInt_ofNat_of_lt (by omega)
      refine serial.extend locks (fun _ _ => rfl) rfl ?_ rfl rfl rfl rfl rfl rfl ?_ ?_
      · have longer : s.size < off := by
          rw [UInt32.lt_iff_toNat_lt]
          omega
        change (if 0 < bytes.length ∧ s.size < off then off else s.size).toNat =
          s.text.length + (Int32.ofNat bytes.length).toInt.toNat
        rw [if_pos ⟨positive, longer⟩, begins, result, whole]
        rfl
      · exact ⟨small, filled, rfl, .inr ⟨result, last, whole ▸ copied⟩⟩
      · refine mine _ ?_ rfl
        rw [Phase.fails, decide_eq_false_iff_not, Int32.lt_iff_toInt_lt, result]
        exact Int.not_lt.mpr (Int.natCast_nonneg _)

/-- `f->off` passes over the buffer, which has its place from here on. -/
theorem Serial.advance (serial : Serial s) (now : s.phase p = .wrote bytes i r) :
    Serial (s.advance p bytes i r) := by
  have tells := serial.tells p
  have locks : (s.phase p).locks = true := by rw [now]; rfl
  have owner := (serial.owned p).mp locks
  have size := serial.size
  rw [owner] at size
  change _ = _ + (s.phase p).grown at size
  rw [now] at tells size
  obtain ⟨small, filled, rfl, rfl | ⟨result, last, written⟩⟩ := tells
  · unfold State.advance
    rw [if_neg (by decide)]
    refine serial.pass (.kept _ ?_) ?_ ?_ ?_
    · rw [locks]
      rfl
    · rw [now]
      exact ⟨rfl, rfl⟩
    · exact ⟨small, filled, rfl, .inl rfl⟩
    · intro goes
      cases goes
  · have short : bytes.length ≤ 6656 := small
    have room : s.text.length + bytes.length ≤ 71680 := last
    have count : r.toInt.toNat = bytes.length := by rw [result]; rfl
    have positive : 0 < r := by
      rw [Int32.lt_iff_toInt_lt, result]
      exact Int.natCast_pos.mpr (length_pos_iff.mpr filled)
    unfold State.advance
    rw [if_pos positive, drop_zero, count, take_length]
    have text : (({ s with off := s.off + r.toUInt32 }.place p bytes).setPhase p
        (.advanced bytes 0 r)).text = s.text ++ bytes := text_place bytes
    refine ⟨?_, ?_, ?_, ?_, ?_, ?_, ?_⟩
    · rw [text, length_append]
      exact last
    · rw [text]
      intro o inside
      rw [length_append] at inside
      change s.byte o = _
      by_cases old : o < s.text.length
      · rw [serial.content o old, getD_append _ _ _ _ old]
      · rw [getD_append_right _ _ _ _ (Nat.not_lt.mp old),
          ← written (o - s.text.length) (by omega)]
        congr 1
        omega
    · have unsigned := toNat_toUInt32 (n := r) (by omega)
      rw [text, length_append]
      change (s.off + r.toUInt32).toNat = _
      rw [UInt32.toNat_add, serial.off]
      omega
    · rw [text, length_append]
      change s.size.toNat = _ + s.owner.elim 0 fun q =>
        (update s.phase p (.advanced bytes 0 r) q).grown
      rw [owner, size]
      change _ = _ + (update s.phase p (.advanced bytes 0 r) p).grown
      rw [update_self]
      change _ + r.toInt.toNat = _ + 0
      rw [count, Nat.add_zero]
    · exact serial.owned_update (.kept _ (by rw [locks]; rfl))
    · refine (forall_update_iff s.phase fun _ phase => phase.Tells _ _).mpr ⟨?_, ?_⟩
      · exact ⟨small, filled, rfl, .inr result⟩
      · intro q other
        exact (serial.tells q).unlocked (serial.others_unlocked locks other)
    · refine (forall_update_iff s.phase (Accounted _)).mpr ⟨?_, ?_⟩
      · intro succeeded _
        have mine := serial.own p succeeded (by
          rw [now, Phase.fails, decide_eq_false_iff_not, Int32.not_lt]
          exact Int32.le_of_lt positive)
        rw [now] at mine
        change placedBy (s.placed ++ [(p, bytes)]) p ++ [] = s.calls p
        rw [placedBy_append_self, append_nil]
        exact mine
      · intro q other
        exact (serial.own q).kept rfl (placedBy_append_of_ne _ _ _ other) fun _ member => member

theorem Serial.unlocked (serial : Serial s) (now : s.phase p = .unlocked bytes i r) :
    Serial (if r < 0 then s.conclude p bytes i
      else s.setPhase p (.turn bytes (i + r.toInt.toNat))) := by
  have tells := serial.tells p
  rw [now] at tells
  obtain ⟨small, filled, rfl, result⟩ := tells
  have positive : 0 < bytes.length := length_pos_iff.mpr filled
  split
  · refine serial.conclude ?_ (.inl (Nat.ne_of_lt positive))
    rw [now]
    rfl
  · next goes =>
      have count : r.toInt = bytes.length := result.resolve_left (by
        rintro rfl
        exact goes (by decide))
      have all : 0 + r.toInt.toNat = bytes.length := by
        rw [count]
        exact Nat.zero_add _
      rw [all]
      refine serial.pass (.kept _ ?_) ?_ ?_ ?_
      · rw [now]
        rfl
      · rw [now]
        exact ⟨rfl, rfl⟩
      · exact ⟨small, .inr rfl⟩
      · intro _
        rw [now]
        exact ⟨decide_eq_false goes, if_pos ⟨Nat.le_refl _, positive⟩⟩

theorem Serial.turn (serial : Serial s) (now : s.phase p = .turn bytes i) :
    Serial (if i < bytes.length then s.setPhase p (.begun bytes i) else s.conclude p bytes i) := by
  have tells := serial.tells p
  rw [now] at tells
  obtain ⟨small, first⟩ := tells
  split
  · next more =>
      obtain rfl : i = 0 := first.resolve_right (Nat.ne_of_lt more)
      refine serial.pass (.kept _ ?_) ?_ ?_ ?_
      · rw [now]
        rfl
      · rw [now]
        exact ⟨rfl, rfl⟩
      · exact ⟨small, length_pos_iff.mp more, rfl⟩
      · intro _
        rw [now]
        exact ⟨rfl, (if_neg (fun ends => Nat.lt_irrefl 0 ends.2)).symm⟩
  · next ends =>
      refine serial.conclude ?_ (.inr ?_)
      · rw [now]
        rfl
      · rw [now]
        refine ⟨rfl, ?_⟩
        cases bytes with
        | nil =>
          have empty : i = 0 := first.elim id id
          simp [Phase.pending, empty]
        | cons byte rest =>
          have positive : 0 < i := Nat.lt_of_lt_of_le (Nat.succ_pos _) (Nat.not_lt.mp ends)
          exact if_pos ⟨Nat.not_lt.mp ends, positive⟩

end State

/-- The buffers are no longer than what `filewrite` writes in one turn. -/
def Label.Short {P : Type} : Label P → Prop
  | .write _ bytes => bytes.length ≤ filewriteMax
  | .proceed _ => True

instance {P : Type} : DecidablePred (Label.Short (P := P))
  | .write _ bytes => inferInstanceAs (Decidable (bytes.length ≤ filewriteMax))
  | .proceed _ => .isTrue trivial

namespace State

variable {P : Type} {s s' : State P} {p : P} [DecidableEq P]

theorem Serial.step (serial : Serial s) {label : Label P} (short : label.Short)
    (stepped : s.step label = some s') : Serial s' := by
  cases label with
  | write p bytes =>
    rw [State.step] at stepped
    obtain ⟨idle, rfl⟩ := of_guard stepped
    exact serial.write idle short
  | proceed p =>
    have tells := serial.tells p
    cases now : s.phase p with
    | idle =>
      simp only [State.step, now] at stepped
      cases stepped
    | turn bytes i =>
      have after := serial.turn now
      simp only [State.step, now] at stepped
      split at stepped
      next more =>
        cases stepped
        rw [if_pos more] at after
        exact after
      next ends =>
        cases stepped
        rw [if_neg ends] at after
        exact after
    | begun bytes i =>
      simp only [State.step, now] at stepped
      rw [now] at tells
      obtain ⟨free, rfl⟩ := of_guard stepped
      refine serial.pass ?_ ?_ tells ?_
      · rw [free]
        exact .locked rfl
      · rw [now]
        exact ⟨rfl, rfl⟩
      · intro _
        rw [now]
        exact ⟨rfl, rfl⟩
    | locked bytes i =>
      simp only [State.step, now] at stepped
      cases stepped
      exact serial.writei now
    | copying bytes i n1 off tot =>
      simp only [State.step, now] at stepped
      cases stepped
      exact serial.copy now
    | wrote bytes i r =>
      simp only [State.step, now] at stepped
      cases stepped
      exact serial.advance now
    | advanced bytes i r =>
      simp only [State.step, now] at stepped
      rw [now] at tells
      cases stepped
      refine serial.pass ?_ ?_ tells ?_
      · rw [(serial.owned p).mp (by rw [now]; rfl)]
        exact .unlocked rfl
      · rw [now]
        exact ⟨rfl, rfl⟩
      · intro goes
        rw [now]
        exact ⟨goes, rfl⟩
    | unlocked bytes i r =>
      have after := serial.unlocked now
      simp only [State.step, now] at stepped
      split at stepped
      next failed =>
        cases stepped
        rw [if_pos failed] at after
        exact after
      next goes =>
        split at stepped
        next => cases stepped
        next =>
          cases stepped
          rw [if_neg goes] at after
          exact after

theorem Serial.content_eq (serial : Serial s) (free : s.owner = none) : s.content = s.text := by
  have size := serial.size
  rw [free] at size
  change _ = _ + 0 at size
  apply ext_getElem
  · rw [State.content, length_map, length_range, size, Nat.add_zero]
  · intro o inside within
    have byte := serial.content o within
    rw [getD_eq_getElem _ _ within] at byte
    simp only [State.content, getElem_map, getElem_range]
    exact byte

/-- Writes of at most `filewriteMax` bytes that all succeed leave the buffers one after the other
in the file, in an order that keeps the order of each process, and `f->off` at its end. -/
theorem run_concatenates (block : Nat → Block) {labels : List (Label P)}
    (short : ∀ label ∈ labels, label.Short)
    (reached : run step (State.created block) labels = some s) (idle : ∀ p, s.phase p = .idle)
    (succeeded : ∀ p result, (p, result) ∈ s.returned → result ≠ -1) :
    ∃ order : List (P × List UInt8), (∀ p, placedBy order p = s.calls p) ∧
      s.content = order.flatMap Prod.snd ∧ s.off = s.size := by
  have conforms : Conforms step (fun _ label => label.Short) (State.created block) labels :=
    conforms_of_forall (fun label member _ => short label member) _
  have serial : Serial s := by
    refine run_invariant Serial ?_ (.created block) conforms reached
    intro state label next before meets stepped
    exact before.step meets stepped
  have free : s.owner = none := by
    cases owner : s.owner with
    | none => rfl
    | some p =>
      have locks := (serial.owned p).mpr owner
      rw [idle p] at locks
      cases locks
  refine ⟨s.placed, ?_, serial.content_eq free, ?_⟩
  · intro p
    have own := serial.own p (succeeded p)
    rw [idle p] at own
    have all := own rfl
    rw [Phase.pending, append_nil] at all
    exact all
  · apply UInt32.toNat_inj.mp
    rw [serial.off, serial.size, free]
    rfl

def twoWriters : List (Label (Fin 2)) :=
  [.write 0 [1, 2, 3], .write 1 [4], .proceed 0, .proceed 1] ++ .replicate 6 (.proceed 0) ++
    [.proceed 1] ++ .replicate 2 (.proceed 0) ++ .replicate 7 (.proceed 1)

theorem twoWriters_concatenates : ∃ s, run step (State.created fun _ _ => 0) twoWriters = some s ∧
    s.returned = [(0, 3), (1, 1)] ∧
    ∃ order : List (Fin 2 × List UInt8), (∀ p, placedBy order p = s.calls p) ∧
      s.content = order.flatMap Prod.snd ∧ s.off = s.size := by
  have short : ∀ label ∈ twoWriters, label.Short := by decide
  have ran : (run step (State.created fun _ _ => 0) twoWriters).map
      (fun s => (s.phase 0, s.phase 1, s.returned)) = some (.idle, .idle, [(0, 3), (1, 1)]) := by
    decide +kernel
  obtain ⟨s, reached, fields⟩ := Option.map_eq_some_iff.mp ran
  simp only [Prod.mk.injEq] at fields
  obtain ⟨first, second, returned⟩ := fields
  refine ⟨s, reached, returned, run_concatenates _ short reached ?_ ?_⟩
  · rw [Fin.forall_fin_two]
    exact ⟨first, second⟩
  · intro p result member
    rw [returned] at member
    have results : ∀ entry ∈ [((0 : Fin 2), (3 : Int32)), (1, 1)], entry.2 ≠ -1 := by simp
    exact results (p, result) member

end State

end StraceXv6.Kernel.SharedFile
