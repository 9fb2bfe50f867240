import StraceXv6.Kernel.Files.Table

namespace StraceXv6.Kernel.Files

open List Function Data
open Data.Command
open Kernel.Process

variable {I : Type}

/-! The references to a file are its descriptors, and those of the call that is at work. -/

def Pipe.isOpen (pipe : Pipe) (writable : Bool) : Bool :=
  if writable then pipe.writeopen else pipe.readopen

def State.Open (s : State I) (page : Nat) (writable : Bool) : Prop :=
  ∃ pipe, s.pipe page = some pipe ∧ pipe.isOpen writable = true

def File.IsEnd (file : File I) (page : Nat) (writable : Bool) : Prop :=
  file.type = .fdPipe ∧ file.pipe = some page ∧ file.writable = writable

/-- `held` are the references of local variables, less those not yet counted. -/
structure Kept (s : State I) (held : FileIx → Int) : Prop where
  balanced : Balanced (File.ref ∘ s.file) s.ofile held
  idle : ∀ f, (s.file f).ref = 0 → (s.file f).type = .fdNone
  ends : ∀ page writable, s.Open page writable ↔ ∃ f, (s.file f).IsEnd page writable
  unique : ∀ f f' page writable, (s.file f).IsEnd page writable →
    (s.file f').IsEnd page writable → f = f'

def Closed (s : State I) : Prop :=
  ∀ p fd, ¬(s.table.proc p).state.Live → s.ofile (p, fd) = none

structure Elsewhere (s s' : State I) : Prop where
  table : s'.table = s.table
  ofile : s'.ofile = s.ofile

section

variable {s s' s'' : State I} {held held' : FileIx → Int} {f : FileIx} {file : File I}

theorem Elsewhere.trans (first : Elsewhere s s') (second : Elsewhere s' s'') :
    Elsewhere s s'' :=
  ⟨second.table.trans first.table, second.ofile.trans first.ofile⟩

theorem Elsewhere.closed (elsewhere : Elsewhere s s') (closed : Closed s) : Closed s' := by
  intro p fd
  rw [elsewhere.table, elsewhere.ofile]
  exact closed p fd

theorem elsewhere_setFile : Elsewhere s (s.setFile f file) := ⟨rfl, rfl⟩

namespace Kept

theorem hold (kept : Kept s held) (same : ∀ f, held' f = held f) : Kept s held' :=
  { kept with balanced := kept.balanced.hold same }

theorem not_isEnd (kept : Kept s held) (idle : (s.file f).ref = 0) (page : Nat)
    (writable : Bool) : ¬(s.file f).IsEnd page writable := by
  intro isEnd
  have type := kept.idle f idle
  rw [isEnd.1] at type
  cases type

theorem setFile (kept : Kept s held)
    (balanced : Balanced (update (File.ref ∘ s.file) f file.ref) s.ofile held')
    (idle : file.ref = 0 → file.type = .fdNone)
    (same : ∀ page writable, file.IsEnd page writable ↔ (s.file f).IsEnd page writable) :
    Kept (s.setFile f file) held' := by
  have isEnd : ∀ g page writable, ((s.setFile f file).file g).IsEnd page writable ↔
      (s.file g).IsEnd page writable := by
    intro g page writable
    change (update s.file f file g).IsEnd page writable ↔ _
    by_cases mine : g = f
    · rw [mine, update_self]
      exact same page writable
    · rw [update_of_ne mine]
  refine ⟨?_, ?_, ?_, ?_⟩
  · change Balanced (File.ref ∘ update s.file f file) s.ofile held'
    rw [comp_update]
    exact balanced
  · intro g
    change (update s.file f file g).ref = 0 → (update s.file f file g).type = _
    by_cases mine : g = f
    · rw [mine, update_self]
      exact idle
    · rw [update_of_ne mine]
      exact kept.idle g
  · intro page writable
    simp only [isEnd]
    exact kept.ends page writable
  · intro g g' page writable
    rw [isEnd, isEnd]
    exact kept.unique g g' page writable

theorem setOfile (kept : Kept s held) (p : Slot) (fd : Fd) (slot : Option FileIx) :
    Kept (s.setOfile p fd slot)
      (fun g => held g + points g (s.ofile (p, fd)) - points g slot) :=
  { kept with balanced := kept.balanced.store (p, fd) slot }

theorem frame (kept : Kept s held) (file : s'.file = s.file) (pipe : s'.pipe = s.pipe)
    (ofile : s'.ofile = s.ofile) : Kept s' held := by
  refine ⟨?_, ?_, ?_, ?_⟩
  · rw [file, ofile]
    exact kept.balanced
  · rw [file]
    exact kept.idle
  · unfold State.Open
    rw [file, pipe]
    exact kept.ends
  · rw [file]
    exact kept.unique

theorem raise (kept : Kept s held) (f : FileIx) :
    Kept (s.setFile f { s.file f with ref := (s.file f).ref + 1 })
      (fun g => held g + points g (some f)) :=
  kept.setFile (kept.balanced.raise f) (fun zero => absurd zero (Nat.succ_ne_zero _))
    (fun _ _ => Iff.rfl)

theorem fill (kept : Kept s held) (counted : 0 < (s.file f).ref)
    (same : file.ref = (s.file f).ref)
    (before : ∀ page writable, ¬(s.file f).IsEnd page writable)
    (after : ∀ page writable, ¬file.IsEnd page writable) : Kept (s.setFile f file) held := by
  refine kept.setFile ?_ ?_ (fun page writable => iff_of_false (after page writable)
    (before page writable))
  · rw [same]
    have unchanged : update (File.ref ∘ s.file) f (s.file f).ref = File.ref ∘ s.file :=
      update_eq_self f (File.ref ∘ s.file)
    rw [unchanged]
    exact kept.balanced
  · intro zero
    rw [same] at zero
    omega

theorem referenced (kept : Kept s held) (holds : 0 < held f) : 0 < (s.file f).ref :=
  kept.balanced.positive_of_held holds

end Kept

structure Allocated (s : State I) (f : FileIx) (s' : State I) : Prop extends Elsewhere s s' where
  pipe : s'.pipe = s.pipe
  free : (s.file f).ref = 0
  one : (s'.file f).ref = 1
  noEnd : ∀ page writable, ¬(s'.file f).IsEnd page writable
  others : ∀ g, g ≠ f → s'.file g = s.file g

theorem filealloc_ensures (kept : Kept s held) :
    Ensures filealloc s (fun result s' =>
      match result with
      | none => s' = s
      | some f => Allocated s f s' ∧ Kept s' (fun g => held g + points g (some f)))
      (fun _ => False) := by
  unfold filealloc
  rw [ensures_bind, ensures_get]
  split
  next => exact rfl
  next f found =>
    have free := List.find?_some found
    simp only [decide_eq_true_eq] at free
    have here : ((s.setFile f { s.file f with ref := 1 }).file f) = { s.file f with ref := 1 } :=
      update_self ..
    rw [ensures_bind, ensures_modify, ensures_pure]
    refine ⟨⟨⟨rfl, rfl⟩, rfl, free, congrArg File.ref here, ?_, ?_⟩, ?_⟩
    · rw [here]
      exact kept.not_isEnd free
    · exact fun g other => update_of_ne other ..
    · refine kept.setFile ?_ (fun zero => absurd zero (by simp)) (fun _ _ => Iff.rfl)
      have raised := kept.balanced.raise f
      rw [comp_apply, free] at raised
      exact raised

theorem filedup_ensures (kept : Kept s held) (referenced : 0 < (s.file f).ref) :
    Ensures (filedup f) s (fun _ s' => Elsewhere s s' ∧
      Kept s' (fun g => held g + points g (some f))) (fun _ => False) := by
  unfold filedup
  rw [ensures_bind, ensures_get, if_neg (Nat.not_lt.mpr referenced), ensures_modify]
  exact ⟨elsewhere_setFile, kept.raise f⟩

theorem isOpen_close (pipe : Pipe) (writable other : Bool) :
    (pipe.close writable).isOpen other = (pipe.isOpen other && other != writable) := by
  cases writable <;> cases other <;> simp [Pipe.close, Pipe.isOpen]

theorem not_isOpen_of_closed {pipe : Pipe}
    (closed : (!pipe.readopen && !pipe.writeopen) = true) (writable : Bool) :
    pipe.isOpen writable = false := by
  simp only [Bool.and_eq_true, Bool.not_eq_true'] at closed
  cases writable with
  | false => exact closed.1
  | true => exact closed.2

theorem pipeclose_ensures (s : State I) (page : Nat) (writable : Bool) :
    Ensures (pipeclose page writable) s (fun _ s' => ∃ pipe, s' = s.setPipe page pipe ∧
      ∀ other, (∃ left, pipe = some left ∧ left.isOpen other = true) ↔
        s.Open page other ∧ other ≠ writable) (fun _ => False) := by
  have shut : ∀ pipe other, s.pipe page = some pipe →
      ((pipe.close writable).isOpen other = true ↔ s.Open page other ∧ other ≠ writable) := by
    intro pipe other here
    rw [isOpen_close, Bool.and_eq_true, bne_iff_ne]
    refine and_congr_left' ⟨fun isOpen => ⟨pipe, here, isOpen⟩, ?_⟩
    intro isOpen
    obtain ⟨pipe', same, isOpen⟩ := isOpen
    obtain rfl := Option.some.inj (here.symm.trans same)
    exact isOpen
  unfold pipeclose
  rw [ensures_bind, ensures_get]
  cases here : s.pipe page with
  | none =>
    refine ⟨none, ?_, ?_⟩
    · rw [State.setPipe, ← here, update_eq_self]
    · intro other
      refine iff_of_false (by simp) ?_
      intro both
      obtain ⟨⟨pipe, same, _⟩, _⟩ := both
      exact absurd (here.symm.trans same) (by simp)
  | some pipe =>
    simp only [Option.map_some]
    split
    next gone =>
      rw [ensures_modify]
      refine ⟨none, rfl, ?_⟩
      intro other
      refine iff_of_false (by simp) ?_
      rw [← shut pipe other here, not_isOpen_of_closed gone other]
      simp
    next =>
      rw [ensures_modify]
      refine ⟨some (pipe.close writable), rfl, ?_⟩
      intro other
      rw [← shut pipe other here]
      simp

variable {page : Nat} {fd : Fd} {g : FileIx} {c : Slot} {call : Call I}

theorem Kept.closeEnd (kept : Kept s held) {writable : Bool}
    (isEnd : (s.file f).IsEnd page writable) {pipe : Option Pipe}
    (balanced : Balanced (update (File.ref ∘ s.file) f file.ref) s.ofile held')
    (type : file.type = .fdNone)
    (shut : ∀ other, (∃ left, pipe = some left ∧ left.isOpen other = true) ↔
      s.Open page other ∧ other ≠ writable) :
    Kept ((s.setFile f file).setPipe page pipe) held' := by
  have others : ∀ g page' writable', (update s.file f file g).IsEnd page' writable' ↔
      (s.file g).IsEnd page' writable' ∧ ¬(page' = page ∧ writable' = writable) := by
    intro g page' writable'
    by_cases mine : g = f
    · rw [mine, update_self]
      refine iff_of_false ?_ ?_
      · intro also
        exact absurd (type.symm.trans also.1) (by decide)
      · intro both
        refine both.2 ⟨?_, ?_⟩
        · exact Option.some.inj (both.1.2.1.symm.trans isEnd.2.1)
        · exact both.1.2.2.symm.trans isEnd.2.2
    · rw [update_of_ne mine, iff_self_and]
      intro also same
      rw [same.1, same.2] at also
      exact mine (kept.unique g f page writable also isEnd)
  refine ⟨?_, ?_, ?_, ?_⟩
  · change Balanced (File.ref ∘ update s.file f file) s.ofile held'
    rw [comp_update]
    exact balanced
  · intro g
    change (update s.file f file g).ref = 0 → (update s.file f file g).type = _
    by_cases mine : g = f
    · rw [mine, update_self]
      exact fun _ => type
    · rw [update_of_ne mine]
      exact kept.idle g
  · intro page' writable'
    change (∃ left, update s.pipe page pipe page' = some left ∧ _) ↔
      ∃ g, (update s.file f file g).IsEnd page' writable'
    simp only [others]
    rw [exists_and_right, ← kept.ends page' writable']
    by_cases same : page' = page
    · subst same
      rw [update_self, shut writable']
      exact and_congr_right' (not_congr (and_iff_right rfl)).symm
    · rw [update_of_ne same]
      exact (and_iff_left fun both => same both.1).symm
  · intro g g' page' writable' first second
    exact kept.unique g g' page' writable' ((others g page' writable').mp first).1
      ((others g' page' writable').mp second).1

theorem fileclose_ensures (kept : Kept s held) (referenced : 0 < (s.file f).ref) :
    Ensures (fileclose f) s (fun _ s' => Elsewhere s s' ∧
      Kept s' (fun g => held g - points g (some f))) (fun _ => False) := by
  have lowered := kept.balanced.lower (r := f) referenced
  unfold fileclose
  rw [ensures_bind, ensures_get, if_neg (Nat.not_lt.mpr referenced)]
  split
  next more =>
    rw [ensures_modify]
    refine ⟨elsewhere_setFile, kept.setFile lowered ?_ (fun _ _ => Iff.rfl)⟩
    exact fun zero => absurd zero (Nat.ne_of_gt more)
  next last =>
    have one : (File.ref ∘ s.file) f - 1 = 0 := Nat.eq_zero_of_not_pos last
    rw [one] at lowered
    rw [ensures_bind, ensures_modify]
    have drop : (∀ page writable, ¬(s.file f).IsEnd page writable) →
        Kept (s.setFile f { s.file f with ref := 0, type := .fdNone })
          (fun g => held g - points g (some f)) := by
      intro none
      refine kept.setFile lowered (fun _ => rfl) ?_
      intro page writable
      refine iff_of_false ?_ (none page writable)
      exact fun isEnd => absurd isEnd.1 (by simp)
    split
    next _ _ page type address =>
      refine (pipeclose_ensures _ page _).weaken ?_
      intro _ s' closed
      obtain ⟨pipe, rfl, shut⟩ := closed
      exact ⟨⟨rfl, rfl⟩, kept.closeEnd ⟨type, address, rfl⟩ lowered rfl shut⟩
    next type =>
      rw [ensures_modify]
      refine ⟨⟨rfl, rfl⟩, (drop ?_).frame rfl rfl rfl⟩
      intro page writable isEnd
      exact absurd (type.symm.trans isEnd.1) (by decide)
    next notPipe =>
      rw [ensures_pure]
      refine ⟨elsewhere_setFile, drop ?_⟩
      intro page writable isEnd
      exact notPipe page isEnd.1 isEnd.2.1

theorem fdalloc_ensures (kept : Kept s held) (p : Slot) (f : FileIx) :
    Ensures (fdalloc p f) s (fun result s' =>
      match result with
      | none => s' = s
      | some fd => s.ofile (p, fd) = none ∧ s' = s.setOfile p fd (some f) ∧
          Kept s' (fun g => held g - points g (some f)))
      (fun _ => False) := by
  unfold fdalloc
  rw [ensures_bind, ensures_get]
  split
  next => exact rfl
  next fd found =>
    have free := List.find?_some found
    simp only [decide_eq_true_eq] at free
    rw [ensures_bind, ensures_modify, ensures_pure]
    refine ⟨free, rfl, (kept.setOfile p fd (some f)).hold ?_⟩
    intro g
    rw [free, points_none]
    simp

structure Resting (s : State I) : Prop where
  kept : Kept s fun _ => 0
  closed : Closed s

theorem Closed.setOfile (closed : Closed s) {p : Slot} (live : (s.table.proc p).state.Live)
    (fd : Fd) (slot : Option FileIx) : Closed (s.setOfile p fd slot) := by
  intro q fd' dead
  change update s.ofile (p, fd) slot (q, fd') = none
  rw [update_of_ne]
  · exact closed q fd' dead
  · intro same
    rw [(Prod.mk.inj same).1] at dead
    exact dead live

theorem argfd_ensures (s : State I) (p : Slot) (fd : Option Int32) :
    Ensures (argfd p fd) s (fun result s' => s' = s ∧
      ∀ fd f, result = some (fd, f) → s.ofile (p, fd) = some f) (fun _ => False) := by
  unfold argfd
  rw [ensures_bind, ensures_get]
  split
  next => exact ⟨rfl, fun _ _ none => absurd none (by simp)⟩
  next n =>
    split
    next => exact ⟨rfl, fun _ _ none => absurd none (by simp)⟩
    next =>
      refine ⟨rfl, ?_⟩
      intro fd f found
      obtain ⟨f', here, same⟩ := Option.map_eq_some_iff.mp found
      obtain ⟨rfl, rfl⟩ := Prod.mk.inj same
      exact here

variable {p : Slot}

theorem Resting.referenced (resting : Resting s) (refers : s.ofile (p, fd) = some f) :
    0 < (s.file f).ref :=
  resting.kept.balanced.positive_of_slot (le_refl 0) refers

theorem sysDup_ensures (resting : Resting s) (live : (s.table.proc p).state.Live)
    (fd : Option Int32) :
    Ensures (sysDup p fd) s (fun _ s' => Resting s') (fun _ => False) := by
  unfold sysDup
  refine (argfd_ensures s p fd).seq ?_
  intro result s₁ found
  obtain ⟨rfl, refers⟩ := found
  split
  next => exact resting
  next _ fd f =>
    refine (fdalloc_ensures resting.kept p f).seq ?_
    intro result s₂ allocated
    split
    next =>
      obtain rfl := allocated
      exact resting
    next fd' =>
      obtain ⟨_, rfl, kept⟩ := allocated
      -- The descriptor is there before it is counted.
      have referenced := resting.referenced (refers fd f rfl)
      refine (filedup_ensures kept referenced).seq ?_
      intro _ s₃ duplicated
      obtain ⟨elsewhere, kept⟩ := duplicated
      refine ⟨kept.hold ?_, elsewhere.closed (resting.closed.setOfile live fd' _)⟩
      intro g
      omega

theorem sysClose_ensures (resting : Resting s) (live : (s.table.proc p).state.Live)
    (fd : Option Int32) :
    Ensures (sysClose p fd) s (fun _ s' => Resting s') (fun _ => False) := by
  unfold sysClose
  refine (argfd_ensures s p fd).seq ?_
  intro result s₁ found
  obtain ⟨rfl, refers⟩ := found
  split
  next => exact resting
  next _ fd f =>
    rw [ensures_bind, ensures_modify]
    have kept := resting.kept.setOfile p fd none
    have referenced := resting.referenced (refers fd f rfl)
    refine (fileclose_ensures kept referenced).seq ?_
    intro _ s₂ closed
    obtain ⟨elsewhere, kept⟩ := closed
    refine ⟨kept.hold ?_, elsewhere.closed (resting.closed.setOfile live fd none)⟩
    intro g
    rw [refers fd f rfl, points_none]
    omega

theorem sysOpen_ensures (resting : Resting s) (live : (s.table.proc p).state.Live)
    (ip : Option I) (omode : Int32) :
    Ensures (sysOpen p ip omode) s (fun _ s' => Resting s') (fun _ => False) := by
  unfold sysOpen
  split
  next => exact resting
  next ip =>
    refine (filealloc_ensures resting.kept).seq ?_
    intro result s₁ allocated
    split
    next =>
      obtain rfl := allocated
      exact ⟨resting.kept.frame rfl rfl rfl, resting.closed⟩
    next f =>
      obtain ⟨allocated, kept⟩ := allocated
      have closed := allocated.toElsewhere.closed resting.closed
      refine (fdalloc_ensures kept p f).seq ?_
      intro result s₂ placed
      split
      next =>
        obtain rfl := placed
        refine (fileclose_ensures kept (kept.referenced ?_)).seq ?_
        · rw [points_self]
          decide
        intro _ s₃ ended
        obtain ⟨elsewhere, kept⟩ := ended
        refine ⟨(kept.hold ?_).frame rfl rfl rfl, elsewhere.closed closed⟩
        intro g
        omega
      next fd =>
        obtain ⟨_, rfl, kept⟩ := placed
        rw [ensures_bind, ensures_modify, ensures_pure]
        refine ⟨(kept.fill ?_ ?_ allocated.noEnd ?_).hold ?_, ?_⟩
        · exact allocated.one ▸ Nat.one_pos
        · rfl
        · exact fun page writable isEnd => absurd isEnd.1 (by simp)
        · intro g
          omega
        · rw [← allocated.table] at live
          exact closed.setOfile live fd (some f)

theorem fileclose_both_ensures (kept : Kept s fun h => points h (some f) + points h (some g))
    (value : A) :
    Ensures (do fileclose f; fileclose g; pure value) s (fun result s' => result = value ∧
      Elsewhere s s' ∧ Kept s' fun _ => 0) (fun _ => False) := by
  have first : 0 < (points f (some f) + points f (some g) : Int) := by
    rw [points_self]
    omega
  refine (fileclose_ensures kept (kept.referenced first)).seq ?_
  intro _ s₁ closed
  obtain ⟨elsewhere, kept⟩ := closed
  refine (fileclose_ensures kept (kept.referenced ?_)).seq ?_
  · rw [points_self]
    omega
  · intro _ s₂ closed
    obtain ⟨elsewhere', kept⟩ := closed
    refine ⟨rfl, elsewhere.trans elsewhere', kept.hold ?_⟩
    intro h
    omega

theorem Kept.makeEnds (kept : Kept s held) (fresh : s.pipe page = none) (different : f ≠ g)
    {file' : File I} (before : ∀ page writable, ¬(s.file f).IsEnd page writable)
    (before' : ∀ page writable, ¬(s.file g).IsEnd page writable)
    (counted : file.ref = (s.file f).ref ∧ file.ref ≠ 0)
    (counted' : file'.ref = (s.file g).ref ∧ file'.ref ≠ 0)
    (after : ∀ page' writable, file.IsEnd page' writable ↔ page' = page ∧ writable = false)
    (after' : ∀ page' writable, file'.IsEnd page' writable ↔ page' = page ∧ writable = true) :
    Kept (((s.setPipe page (some ⟨true, true⟩)).setFile f file).setFile g file') held := by
  generalize files : update (update s.file f file) g file' = now
  have atG : now g = file' := by rw [← files, update_self]
  have atF : now f = file := by
    rw [← files, update_of_ne different, update_self]
  have rest : ∀ h, h ≠ f → h ≠ g → now h = s.file h := by
    intro h notF notG
    rw [← files, update_of_ne notG, update_of_ne notF]
  have refs : File.ref ∘ now = File.ref ∘ s.file := by
    funext h
    rw [comp_apply, comp_apply]
    by_cases isG : h = g
    · rw [isG, atG, counted'.1]
    · by_cases isF : h = f
      · rw [isF, atF, counted.1]
      · rw [rest h isF isG]
  have isEnd : ∀ h page' writable, (now h).IsEnd page' writable ↔
      (s.file h).IsEnd page' writable ∨
        page' = page ∧ h = (if writable then g else f) := by
    intro h page' writable
    by_cases isG : h = g
    · rw [isG, atG, after', or_iff_right (before' page' writable)]
      cases writable <;> simp [Ne.symm different]
    · by_cases isF : h = f
      · rw [isF, atF, after, or_iff_right (before page' writable)]
        cases writable <;> simp [different]
      · rw [rest h isF isG]
        cases writable <;> simp [isF, isG]
  have old : ∀ h writable, ¬(s.file h).IsEnd page writable := by
    intro h writable also
    obtain ⟨pipe, there, _⟩ := (kept.ends page writable).mpr ⟨h, also⟩
    exact absurd (fresh.symm.trans there) (by simp)
  refine ⟨?_, ?_, ?_, ?_⟩
  · change Balanced (File.ref ∘ update (update s.file f file) g file') s.ofile held
    rw [files, refs]
    exact kept.balanced
  · intro h
    change (update (update s.file f file) g file' h).ref = 0 →
      (update (update s.file f file) g file' h).type = _
    rw [files]
    by_cases isG : h = g
    · rw [isG, atG]
      exact fun zero => absurd zero counted'.2
    · by_cases isF : h = f
      · rw [isF, atF]
        exact fun zero => absurd zero counted.2
      · rw [rest h isF isG]
        exact kept.idle h
  · intro page' writable
    change (∃ pipe, update s.pipe page _ page' = some pipe ∧ _) ↔
      ∃ h, (update (update s.file f file) g file' h).IsEnd page' writable
    rw [files]
    simp only [isEnd]
    by_cases same : page' = page
    · subst same
      rw [update_self]
      refine iff_of_true ⟨_, rfl, ?_⟩ ⟨_, .inr ⟨rfl, rfl⟩⟩
      cases writable <;> rfl
    · rw [update_of_ne same]
      simp only [same, false_and, or_false]
      exact kept.ends page' writable
  · intro h h' page' writable
    change (update (update s.file f file) g file' h).IsEnd page' writable →
      (update (update s.file f file) g file' h').IsEnd page' writable → h = h'
    rw [files, isEnd, isEnd]
    intro first second
    by_cases same : page' = page
    · subst same
      rw [or_iff_right (old h writable)] at first
      rw [or_iff_right (old h' writable)] at second
      rw [first.2, second.2]
    · simp only [same, false_and, or_false] at first second
      exact kept.unique h h' page' writable first second

theorem pipealloc_ensures (kept : Kept s fun _ => 0) {page : Option Nat}
    (fresh : ∀ address, page = some address → s.pipe address = none) :
    Ensures (pipealloc page) s (fun result s' => Elsewhere s s' ∧
      match result with
      | none => Kept s' fun _ => 0
      | some (f, g) => Kept s' fun h => points h (some f) + points h (some g))
      (fun _ => False) := by
  unfold pipealloc
  refine (filealloc_ensures kept).seq ?_
  intro result s₁ allocated
  split
  next =>
    obtain rfl := allocated
    exact ⟨⟨rfl, rfl⟩, kept⟩
  next f =>
    obtain ⟨allocated, kept₁⟩ := allocated
    refine (filealloc_ensures kept₁).seq ?_
    intro result s₂ allocated'
    split
    next =>
      obtain rfl := allocated'
      refine (fileclose_ensures kept₁ (kept₁.referenced ?_)).seq ?_
      · rw [points_self]
        decide
      · intro _ s₃ closed
        obtain ⟨elsewhere, kept⟩ := closed
        refine ⟨allocated.toElsewhere.trans elsewhere, kept.hold ?_⟩
        intro h
        omega
    next g =>
      obtain ⟨allocated', kept₂⟩ := allocated'
      have elsewhere := allocated.toElsewhere.trans allocated'.toElsewhere
      have both : Kept s₂ fun h => points h (some f) + points h (some g) := by
        refine kept₂.hold ?_
        intro h
        omega
      split
      next =>
        refine (fileclose_both_ensures both none).weaken ?_
        intro result s₃ closed
        obtain ⟨rfl, elsewhere', kept⟩ := closed
        exact ⟨elsewhere.trans elsewhere', kept⟩
      next address =>
        have different : f ≠ g := by
          rintro rfl
          exact absurd (allocated.one.symm.trans allocated'.free) (by decide)
        have first := allocated'.others f different
        have fresh₂ : s₂.pipe address = none := by
          rw [allocated'.pipe, allocated.pipe]
          exact fresh address rfl
        refine ⟨⟨elsewhere.table, elsewhere.ofile⟩, both.makeEnds fresh₂ different ?_
          allocated'.noEnd ?_ ?_ ?_ ?_⟩
        · rw [first]
          exact allocated.noEnd
        · refine ⟨rfl, ?_⟩
          change (s₂.file f).ref ≠ 0
          rw [first, allocated.one]
          decide
        · change (update s₂.file f _ g).ref = _ ∧
            (update s₂.file f _ g).ref ≠ 0
          rw [update_of_ne (Ne.symm different), allocated'.one]
          decide
        · simp [File.IsEnd, eq_comm]
        · simp [File.IsEnd, eq_comm]

theorem sysPipe_ensures (resting : Resting s) (live : (s.table.proc p).state.Live)
    {page : Option Nat} (fresh : ∀ address, page = some address → s.pipe address = none) :
    Ensures (sysPipe p page) s (fun _ s' => Resting s') (fun _ => False) := by
  unfold sysPipe
  refine (pipealloc_ensures resting.kept fresh).seq ?_
  intro result s₁ allocated
  obtain ⟨elsewhere, kept⟩ := allocated
  have closed := elsewhere.closed resting.closed
  split
  next => exact ⟨kept, closed⟩
  next _ rf wf =>
    refine (fdalloc_ensures kept p rf).seq ?_
    intro result s₂ placed
    split
    next =>
      obtain rfl := placed
      refine (fileclose_both_ensures kept (-1)).weaken ?_
      intro result s₃ ended
      exact ⟨ended.2.2, ended.2.1.closed closed⟩
    next fd =>
      obtain ⟨free, rfl, kept₂⟩ := placed
      rw [← elsewhere.table] at live
      refine (fdalloc_ensures kept₂ p wf).seq ?_
      intro result s₃ placed
      split
      next =>
        obtain rfl := placed
        rw [ensures_bind, ensures_modify]
        have back : Kept ((s₁.setOfile p fd (some rf)).setOfile p fd none)
            fun h => points h (some rf) + points h (some wf) := by
          refine (kept₂.setOfile p fd none).hold ?_
          intro h
          have here : (s₁.setOfile p fd (some rf)).ofile (p, fd) = some rf :=
            update_self ..
          rw [here, points_none]
          omega
        refine (fileclose_both_ensures back (-1)).weaken ?_
        intro result s₃ ended
        refine ⟨ended.2.2, ended.2.1.closed ?_⟩
        exact (closed.setOfile live fd (some rf)).setOfile live fd none
      next fd' =>
        obtain ⟨_, rfl, kept₃⟩ := placed
        refine ⟨kept₃.hold ?_, ?_⟩
        · intro h
          omega
        · exact (closed.setOfile live fd (some rf)).setOfile live fd' (some wf)

theorem dupInto_ensures (kept : Kept s fun _ => 0) (free : s.ofile (c, fd) = none) :
    Ensures (dupInto p c fd) s (fun _ s' => Kept s' (fun _ => 0) ∧ s'.table = s.table ∧
      ∀ q fd', (q, fd') ≠ (c, fd) → s'.ofile (q, fd') = s.ofile (q, fd')) (fun _ => False) := by
  unfold dupInto
  rw [ensures_bind, ensures_get]
  split
  next => exact ⟨kept, rfl, fun _ _ _ => rfl⟩
  next f refers =>
    have referenced := kept.balanced.positive_of_slot (le_refl 0) refers
    refine (filedup_ensures kept referenced).seq ?_
    intro _ s₁ duplicated
    obtain ⟨elsewhere, kept₁⟩ := duplicated
    rw [ensures_modify]
    refine ⟨(kept₁.setOfile c fd (some f)).hold ?_, elsewhere.table, ?_⟩
    · intro g
      rw [elsewhere.ofile, free, points_none]
      omega
    · intro q fd' other
      change update s₁.ofile (c, fd) (some f) (q, fd') = _
      rw [update_of_ne other, elsewhere.ofile]

theorem closeSlot_ensures (kept : Kept s fun _ => 0) (p : Slot) (fd : Fd) :
    Ensures (closeSlot p fd) s (fun _ s' => Kept s' (fun _ => 0) ∧ s'.table = s.table ∧
      s'.ofile = update s.ofile (p, fd) none) (fun _ => False) := by
  unfold closeSlot
  rw [ensures_bind, ensures_get]
  split
  next free =>
    refine ⟨kept, rfl, ?_⟩
    rw [← free, update_eq_self]
  next f refers =>
    have referenced := kept.balanced.positive_of_slot (le_refl 0) refers
    refine (fileclose_ensures kept referenced).seq ?_
    intro _ s₁ ended
    obtain ⟨elsewhere, kept₁⟩ := ended
    rw [ensures_modify]
    refine ⟨(kept₁.setOfile p fd none).hold ?_, elsewhere.table, ?_⟩
    · intro g
      rw [elsewhere.ofile, refers, points_none]
      omega
    · rw [← elsewhere.ofile]
      rfl

theorem dupAll_ensures (kept : Kept s fun _ => 0) (free : ∀ fd, s.ofile (c, fd) = none) :
    Ensures ((List.finRange nofile).forM (dupInto p c)) s (fun _ s' => Kept s' (fun _ => 0) ∧
      s'.table = s.table ∧ ∀ q fd, q ≠ c → s'.ofile (q, fd) = s.ofile (q, fd))
      (fun _ => False) := by
  refine (ensures_forM (fun rest s' => (Kept s' (fun _ => 0) ∧ s'.table = s.table ∧
    ∀ q fd, q ≠ c → s'.ofile (q, fd) = s.ofile (q, fd)) ∧ rest.Nodup ∧
    ∀ fd ∈ rest, s'.ofile (c, fd) = none) ?_ ?_).weaken fun _ _ done => done.1
  · intro fd rest s₁ before
    obtain ⟨⟨kept₁, table, others⟩, nodup, remaining⟩ := before
    refine (dupInto_ensures kept₁ (remaining fd mem_cons_self)).weaken ?_
    intro _ s₂ copied
    obtain ⟨kept₂, table₂, others₂⟩ := copied
    refine ⟨⟨kept₂, table₂.trans table, ?_⟩, (nodup_cons.mp nodup).2, ?_⟩
    · intro q fd' other
      rw [others₂ q fd' fun same => other (Prod.mk.inj same).1]
      exact others q fd' other
    · intro fd' member
      rw [others₂ c fd' ?_]
      · exact remaining fd' (mem_cons_of_mem fd member)
      · intro same
        exact (nodup_cons.mp nodup).1 ((Prod.mk.inj same).2 ▸ member)
  · exact ⟨⟨kept, rfl, fun _ _ _ => rfl⟩, nodup_finRange nofile, fun fd _ => free fd⟩

theorem fork_ensures (resting : Resting s) (room : Bool) :
    Ensures (fork p room) s (fun _ s' => Resting s') (fun _ => False) := by
  unfold fork
  rw [ensures_bind, ensures_get]
  split
  next => exact resting
  next c t allocated =>
    obtain ⟨unused, shape⟩ := Ptable.allocproc_eq_some allocated
    have dead : ¬(s.table.proc c).state.Live := by
      rw [unused]
      decide
    have there : ∀ q, q ≠ c → t.proc q = s.table.proc q := by
      intro q other
      rw [shape]
      exact update_of_ne other ..
    split
    next =>
      rw [ensures_bind, ensures_modify]
      refine (dupAll_ensures (s := s.setTable (t.setParent c p)) (resting.kept.frame rfl rfl rfl)
        fun fd => resting.closed c fd dead).seq ?_
      intro _ s₁ copied
      obtain ⟨kept₁, table, others⟩ := copied
      rw [ensures_bind, ensures_modify, ensures_bind, ensures_modify, ensures_pure]
      refine ⟨kept₁.frame rfl rfl rfl, ?_⟩
      intro q fd gone
      change ¬((s₁.table.modify c fun e => { e with state := .runnable }).proc q).state.Live at gone
      by_cases same : q = c
      · rw [same, Ptable.proc_modify_self] at gone
        exact absurd (.inr (.inl rfl)) gone
      · rw [Ptable.proc_modify_of_ne _ _ same, table] at gone
        refine (others q fd same).trans (resting.closed q fd ?_)
        rw [← there q same]
        change ¬((t.setParent c p).proc q).state.Live at gone
        rwa [Ptable.setParent, Ptable.proc_modify_of_ne _ _ same] at gone
    next =>
      rw [ensures_bind, ensures_modify, ensures_pure]
      refine ⟨resting.kept.frame rfl rfl rfl, ?_⟩
      intro q fd gone
      change ¬((t.modify c fun e => { e with state := .unused }).proc q).state.Live at gone
      by_cases same : q = c
      · rw [same]
        exact resting.closed c fd dead
      · rw [Ptable.proc_modify_of_ne _ _ same, there q same] at gone
        exact resting.closed q fd gone

theorem closeAll_ensures (kept : Kept s fun _ => 0) :
    Ensures ((List.finRange nofile).forM (closeSlot p)) s (fun _ s' => Kept s' (fun _ => 0) ∧
      s'.table = s.table ∧ (∀ q fd, q ≠ p → s'.ofile (q, fd) = s.ofile (q, fd)) ∧
      ∀ fd, s'.ofile (p, fd) = none) (fun _ => False) := by
  refine (ensures_forM (fun rest s' => Kept s' (fun _ => 0) ∧ s'.table = s.table ∧
    (∀ q fd, q ≠ p → s'.ofile (q, fd) = s.ofile (q, fd)) ∧
    ∀ fd, fd ∉ rest → s'.ofile (p, fd) = none) ?_ ?_).weaken ?_
  · intro fd rest s₁ before
    obtain ⟨kept₁, table, others, closed⟩ := before
    refine (closeSlot_ensures kept₁ p fd).weaken ?_
    intro _ s₂ ended
    obtain ⟨kept₂, table₂, ofile⟩ := ended
    refine ⟨kept₂, table₂.trans table, ?_, ?_⟩
    · intro q fd' other
      rw [ofile, update_of_ne fun same => other (Prod.mk.inj same).1]
      exact others q fd' other
    · intro fd' done
      rw [ofile]
      by_cases same : fd' = fd
      · rw [same, update_self]
      · rw [update_of_ne fun equal => same (Prod.mk.inj equal).2]
        exact closed fd' (not_mem_cons_of_ne_of_not_mem same done)
  · exact ⟨kept, rfl, fun _ _ _ => rfl, fun fd done => absurd (mem_finRange fd) done⟩
  · intro _ s' done
    obtain ⟨kept', table, others, closed⟩ := done
    exact ⟨kept', table, others, fun fd => closed fd not_mem_nil⟩

theorem exit_ensures (resting : Resting s) :
    Ensures (exit p) s (fun _ s' => Resting s') (fun failure => failure = .initExiting) := by
  unfold exit
  rw [ensures_bind, ensures_get]
  split
  next => exact rfl
  next other =>
    refine (closeAll_ensures resting.kept).bind ?_ fun _ => False.elim
    intro _ s₁ done
    obtain ⟨kept₁, table, others, closed⟩ := done
    rw [ensures_bind, ensures_modify, ensures_bind, ensures_modify, ensures_modify]
    refine ⟨kept₁.frame rfl rfl rfl, ?_⟩
    intro q fd gone
    simp only [State.setTable, State.iput, table] at gone ⊢
    by_cases same : q = p
    · rw [same]
      exact closed fd
    · rw [others q fd same]
      refine resting.closed q fd ?_
      intro live
      refine gone ?_
      cases (Ptable.exited_exit (Ne.symm other)).state q same with
      | inl kept => rwa [kept]
      | inr woken => exact .inr (.inl woken.2)

theorem wait_ensures (resting : Resting s) :
    Ensures (wait p) s (fun _ s' => Resting s') (fun _ => False) := by
  unfold wait
  rw [ensures_bind, ensures_get]
  split
  next => exact resting
  next q found =>
    have zombie := (Ptable.zombieChild_eq_some found).2
    refine ⟨resting.kept.frame rfl rfl rfl, ?_⟩
    intro r fd gone
    change ¬((s.table.reap q).proc r).state.Live at gone
    refine resting.closed r fd ?_
    by_cases same : r = q
    · rw [same, zombie]
      decide
    · rwa [Ptable.reap, Ptable.proc_modify_of_ne _ _ same] at gone

theorem perform_ensures (resting : Resting s) (enabled : Enabled s call) :
    Ensures (perform call) s (fun _ s' => Resting s') (fun failure => failure = .initExiting) := by
  obtain ⟨live, fresh⟩ := enabled
  cases call with
  | «open» p ip omode =>
    exact (sysOpen_ensures resting live ip omode).mono (fun _ _ => id) fun _ => False.elim
  | dup p fd => exact (sysDup_ensures resting live fd).mono (fun _ _ => id) fun _ => False.elim
  | close p fd =>
    exact (sysClose_ensures resting live fd).mono (fun _ _ => id) fun _ => False.elim
  | pipe p page =>
    refine (sysPipe_ensures resting live ?_).mono (fun _ _ => id) fun _ => False.elim
    intro address same
    subst same
    exact Option.isNone_iff_eq_none.mp fresh
  | fork p room =>
    exact (fork_ensures resting room).mono (fun _ _ => id) fun _ => False.elim
  | exit p => exact (exit_ensures resting).seq fun _ _ => id
  | wait p => exact (wait_ensures resting).mono (fun _ _ => id) fun _ => False.elim

theorem Resting.step (resting : Resting s) (stepped : s.step call = some s') : Resting s' := by
  unfold State.step at stepped
  split at stepped
  next enabled =>
    split at stepped
    next value next performed =>
      cases stepped
      exact (perform_ensures resting enabled).of_ok performed
    next => cases stepped
  next => cases stepped

theorem resting_boot (root : I) : Resting (State.boot root) := by
  have noEnd : ∀ f page writable, ¬((State.boot root).file f).IsEnd page writable :=
    fun f page writable isEnd => absurd isEnd.1 (by simp [State.boot])
  refine ⟨⟨?_, fun _ _ => rfl, ?_, ?_⟩, fun _ _ _ => rfl⟩
  · intro f
    have nothing : tally (points f) (State.boot root).ofile = 0 :=
      tally_const_zero (points f) none rfl
    rw [nothing]
    rfl
  · intro page writable
    refine iff_of_false ?_ ?_
    · exact fun isOpen => absurd isOpen (by simp [State.Open, State.boot])
    · exact fun exists_ => noEnd _ page writable exists_.choose_spec
  · exact fun f _ page writable isEnd => absurd isEnd (noEnd f page writable)

/-- Between calls, the references to a file are its descriptors. -/
theorem files_in_every_run {root : I} {calls : List (Call I)}
    (reached : run State.step (State.boot root) calls = some s) :
    (∀ f, (s.file f).ref = (Finset.univ.filter fun slot => s.ofile slot = some f).card) ∧
      (∀ f, (s.file f).ref = 0 → (s.file f).type = .fdNone) ∧
      (∀ p fd, (s.table.proc p).state = .unused ∨ (s.table.proc p).state = .zombie →
        s.ofile (p, fd) = none) ∧
      (∀ page writable, s.Open page writable ↔
        ∃ slot f, s.ofile slot = some f ∧ (s.file f).IsEnd page writable) ∧
      ∀ call, Enabled s call →
        perform call s ≠ .error .filedup ∧ perform call s ≠ .error .fileclose := by
  have resting : Resting s :=
    run_preserves Resting (fun _ _ _ resting stepped => resting.step stepped)
      (resting_boot root) reached
  refine ⟨?_, resting.kept.idle, ?_, ?_, ?_⟩
  · intro f
    have counted := resting.kept.balanced f
    have slots : tally (points f) s.ofile =
        (Finset.univ.filter fun slot => s.ofile slot = some f).card :=
      (Finset.card_filter _ _).symm
    rw [← slots]
    exact_mod_cast counted.trans (Int.add_zero _)
  · intro p fd gone
    refine resting.closed p fd ?_
    rcases gone with state | state
    all_goals
      rw [state]
      decide
  · intro page writable
    rw [resting.kept.ends page writable]
    refine ⟨?_, fun refers => ⟨_, refers.choose_spec.choose_spec.2⟩⟩
    intro isEnd
    obtain ⟨f, isEnd⟩ := isEnd
    have counted : 0 < (s.file f).ref := by
      refine Nat.pos_of_ne_zero fun zero => ?_
      exact resting.kept.not_isEnd zero page writable isEnd
    obtain ⟨slot, refers⟩ := resting.kept.balanced.exists_slot counted rfl
    exact ⟨slot, f, refers, isEnd⟩
  · intro call enabled
    have ensures := perform_ensures resting enabled
    refine ⟨fun failed => ?_, fun failed => ?_⟩
    all_goals exact absurd (ensures.of_error failed) (by decide)

def pipeToChild : List (Call Unit) :=
  [.open 0 (some ()) 2, .dup 0 (some 0), .pipe 0 (some 7), .fork 0 true, .close 0 (some 2),
    .close 1 (some 2), .exit 1, .wait 0]

theorem files_in_pipeToChild : ∃ s, run State.step (State.boot ()) pipeToChild = some s ∧
    (s.file 0).ref = 2 ∧ s.iputs = [()] ∧
    (s.file 0).ref = (Finset.univ.filter fun slot => s.ofile slot = some 0).card := by
  have runs : (run State.step (State.boot ()) pipeToChild).map
      (fun s => ((s.file 0).ref, s.iputs)) = some (2, [()]) := by decide +kernel
  obtain ⟨s, reached, result⟩ := Option.map_eq_some_iff.mp runs
  obtain ⟨twice, put⟩ := Prod.mk.inj result
  exact ⟨s, reached, twice, put, (files_in_every_run reached).1 0⟩

end

end StraceXv6.Kernel.Files
