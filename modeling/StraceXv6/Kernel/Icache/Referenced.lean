import StraceXv6.Data.References
import StraceXv6.Kernel.Icache.Walks

namespace StraceXv6.Kernel.Icache

open Option Function Data

/-! How many inodes are referred to, and whether `iget` finds an entry. -/

namespace Cache

variable {P : Type} {c c' c'' : Cache P} {p : P} {ip : Ix} {inode : Inode}

def count (c : Cache P) (ip : Ix) : Nat := (c.inode ip).ref

def Distinct (c : Cache P) : Prop :=
  ∀ ip jp, 0 < c.count ip → 0 < c.count jp → (c.inode ip).key = (c.inode jp).key → ip = jp

structure Counted (c c' : Cache P) (ip : Ix) (n : Nat) : Prop where
  count : c'.count = Function.update c.count ip n
  distinct : c.Distinct → c'.Distinct

variable {n : Nat}

theorem count_update (inodes : c'.inode = update c.inode ip inode) (ref : inode.ref = n) :
    c'.count = update c.count ip n := by
  funext jp
  rw [count, inodes, ← ref]
  exact apply_update (fun _ => Inode.ref) c.inode ip inode jp

theorem counted_of_setInode (inodes : c'.inode = update c.inode ip inode)
    (key : inode.key = (c.inode ip).key) (ref : inode.ref = n) (positive : 0 < n → 0 < c.count ip) :
    Counted c c' ip n := by
  have counts := count_update inodes ref
  refine ⟨counts, fun distinct jp kp first second same => ?_⟩
  have keys : ∀ jp, (c'.inode jp).key = (c.inode jp).key := by
    intro jp
    rw [inodes]
    by_cases mine : jp = ip
    · rw [mine, update_self, key]
    · rw [update_of_ne mine]
  have before : ∀ jp, 0 < c'.count jp → 0 < c.count jp := by
    intro jp now
    rw [counts] at now
    by_cases mine : jp = ip
    · rw [mine, update_self] at now
      rw [mine]
      exact positive now
    · rwa [update_of_ne mine] at now
  rw [keys, keys] at same
  exact distinct jp kp (before jp first) (before kp second) same

theorem Counted.same (counted : Counted c c' ip (c.count ip)) : c'.count = c.count := by
  rw [counted.count, update_eq_self]

theorem Distinct.recycle (distinct : c.Distinct)
    (inodes : c'.inode = update c.inode ip inode)
    (missing : ∀ jp, 0 < c.count jp → (c.inode jp).key ≠ inode.key) : c'.Distinct := by
  have old : ∀ jp, jp ≠ ip → c'.count jp = c.count jp ∧ c'.inode jp = c.inode jp := by
    intro jp other
    rw [count, count, inodes, update_of_ne other]
    exact ⟨rfl, rfl⟩
  have new : c'.inode ip = inode := by rw [inodes, update_self]
  intro jp kp first second same
  by_cases mine : jp = ip
  · by_cases also : kp = ip
    · rw [mine, also]
    · rw [(old kp also).1] at second
      rw [mine, new, (old kp also).2] at same
      exact absurd same.symm (missing kp second)
  · rw [(old jp mine).1] at first
    rw [(old jp mine).2] at same
    by_cases also : kp = ip
    · rw [also, new] at same
      exact absurd same (missing jp first)
    · rw [(old kp also).1] at second
      rw [(old kp also).2] at same
      exact distinct jp kp first second same

section

variable [DecidableEq P]

theorem counted_ilock (locked : c.ilock p ip = some c') : Counted c c' ip (c.count ip) := by
  unfold ilock at locked
  split at locked
  next =>
    cases locked
    exact counted_of_setInode (update_eq_self ip c.inode).symm rfl rfl id
  next =>
    cases locked
    exact counted_of_setInode rfl rfl rfl id

theorem counted_load (loaded : c.load p ip = some c') : Counted c c' ip (c.count ip) := by
  unfold load at loaded
  split at loaded
  next => cases loaded
  next =>
    cases loaded
    exact counted_of_setInode rfl rfl rfl id

theorem counted_iunlock (unlocked : c.iunlock p ip = some c') :
    Counted c c' ip (c.count ip) := by
  unfold iunlock at unlocked
  split at unlocked
  next => cases unlocked
  next =>
    cases unlocked
    exact counted_of_setInode rfl rfl rfl id

theorem counted_free (c : Cache P) (p : P) (ip : Ix) :
    Counted c (c.free p ip) ip (c.count ip) :=
  counted_of_setInode rfl rfl rfl id

theorem counted_finish (c : Cache P) (p : P) (ip : Ix) :
    Counted c (c.finish p ip) ip (c.count ip - 1) :=
  counted_of_setInode rfl rfl rfl (lt_of_lt_of_le · (Nat.sub_le _ _))

/-- The first section of `iput` drops the reference, or leaves that to the second. -/
theorem counted_iput (idle : c.phase p = .idle) (put : c.iput p ip = some c') :
    (∃ freed, c'.phase p = .freeing ip freed) ∧ Counted c c' ip (c.count ip) ∨
      c'.phase p = .idle ∧ Counted c c' ip (c.count ip - 1) := by
  unfold iput at put
  split at put
  next =>
    split at put
    next => cases put
    next =>
      cases put
      exact .inl ⟨⟨false, update_self ..⟩, counted_of_setInode rfl rfl rfl id⟩
  next =>
    cases put
    exact .inr ⟨idle, counted_of_setInode rfl rfl rfl (lt_of_lt_of_le · (Nat.sub_le _ _))⟩

theorem counted_iget {dev inum : UInt32} (got : c.iget p dev inum = some c') :
    ∃ ip, (c.cached dev inum).or c.empty = some ip ∧ Counted c c' ip (c.count ip + 1) := by
  unfold iget at got
  split at got
  next ip found =>
    cases got
    have holds := List.find?_some found
    simp only [Bool.and_eq_true, decide_eq_true_eq] at holds
    rw [found]
    exact ⟨ip, rfl, counted_of_setInode rfl rfl rfl fun _ => holds.1⟩
  next missing =>
    split at got
    next ip found =>
      cases got
      have free := List.find?_some found
      simp only [decide_eq_true_eq] at free
      have one : c.count ip + 1 = 1 := by rw [count, free]
      rw [missing, found]
      refine ⟨ip, rfl, ?_, fun distinct => ?_⟩
      · rw [one]
        exact count_update rfl rfl
      · refine distinct.recycle rfl fun jp positive same => ?_
        have none := List.find?_eq_none.mp missing jp (List.mem_finRange jp)
        change 0 < (c.inode jp).ref at positive
        change (c.inode jp).key = (dev, inum) at same
        simp [positive, same] at none
    next => cases got

end

end Cache

namespace Stage

def hasIp : Stage → Bool
  | .out | .reading _ => false
  | _ => true

def hasNext : Stage → Bool
  | .leave _ left | .drop _ left => left.isSome
  | _ => false

end Stage

namespace System

variable {P : Type} {s s' : System P} {p : P}

section

variable [DecidableEq P]

@[simp] theorem pointer_setPointer (s : System P) (holder other : Holder P) (ip : Option Ix) :
    (s.setPointer holder ip).pointer other = if other = holder then ip else s.pointer other :=
  update_apply ..

@[simp] theorem pointer_setStage (s : System P) (p : P) (stage : Stage) :
    (s.setStage p stage).pointer = s.pointer := rfl

@[simp] theorem fileRef_setPointer (s : System P) (holder : Holder P) (ip : Option Ix) :
    (s.setPointer holder ip).fileRef = s.fileRef := rfl

@[simp] theorem fileRef_setStage (s : System P) (p : P) (stage : Stage) :
    (s.setStage p stage).fileRef = s.fileRef := rfl

end

@[simp] theorem pointer_setCache (s : System P) (cache : Cache P) :
    (s.setCache cache).pointer = s.pointer := rfl

@[simp] theorem fileRef_setCache (s : System P) (cache : Cache P) :
    (s.setCache cache).fileRef = s.fileRef := rfl

variable [Fintype P]

structure Sound (s : System P) : Prop where
  balanced : Balanced s.cache.count s.pointer fun _ => 0
  distinct : s.cache.Distinct
  files : ∀ f, s.fileRef f = 0 → s.pointer (.file f) = none
  ip : ∀ p, (s.pointer (.ip p)).isSome = (s.stage p).hasIp
  next : ∀ p, (s.pointer (.next p)).isSome = (s.stage p).hasNext

variable {cache : Cache P} {ip : Ix} {stage : Stage} {holder : Holder P} {goal : Goal}

theorem Sound.inCache (sound : Sound s) (counted : s.cache.Counted cache ip (s.cache.count ip)) :
    Sound (s.setCache cache) := by
  refine ⟨?_, counted.distinct sound.distinct, sound.files, sound.ip, sound.next⟩
  change Balanced cache.count s.pointer _
  rw [counted.same]
  exact sound.balanced

theorem Sound.pointer_ip (sound : Sound s) (none : (s.stage p).hasIp = false) :
    s.pointer (.ip p) = .none := by
  rw [← isNone_iff_eq_none, ← not_isSome, sound.ip, none]
  rfl

theorem Sound.pointer_next (sound : Sound s) (none : (s.stage p).hasNext = false) :
    s.pointer (.next p) = .none := by
  rw [← isNone_iff_eq_none, ← not_isSome, sound.next, none]
  rfl

variable [DecidableEq P]

theorem Sound.of_pointers (sound : Sound s)
    (balanced : Balanced s'.cache.count s'.pointer fun _ => 0) (distinct : s'.cache.Distinct)
    (files : ∀ f, s'.fileRef f = 0 → s'.pointer (.file f) = none)
    (stages : s'.stage = update s.stage p stage)
    (others : ∀ q, q ≠ p → s'.pointer (.ip q) = s.pointer (.ip q) ∧
      s'.pointer (.next q) = s.pointer (.next q)) (ip : (s'.pointer (.ip p)).isSome = stage.hasIp)
    (next : (s'.pointer (.next p)).isSome = stage.hasNext) : Sound s' := by
  refine ⟨balanced, distinct, files, fun q => ?_, fun q => ?_⟩
  · rw [stages]
    by_cases mine : q = p
    · rw [mine, update_self, ip]
    · rw [update_of_ne mine, (others q mine).1]
      exact sound.ip q
  · rw [stages]
    by_cases mine : q = p
    · rw [mine, update_self, next]
    · rw [update_of_ne mine, (others q mine).2]
      exact sound.next q

theorem Sound.still (sound : Sound s) (counted : s.cache.Counted cache ip (s.cache.count ip))
    (hasIp : (s.stage p).hasIp = stage.hasIp) (hasNext : (s.stage p).hasNext = stage.hasNext) :
    Sound ((s.setCache cache).setStage p stage) := by
  refine sound.of_pointers ?_ (counted.distinct sound.distinct) sound.files rfl
    (fun _ _ => ⟨rfl, rfl⟩) ((sound.ip p).trans hasIp) ((sound.next p).trans hasNext)
  change Balanced cache.count s.pointer _
  rw [counted.same]
  exact sound.balanced

theorem Sound.stays (sound : Sound s) (hasIp : (s.stage p).hasIp = stage.hasIp)
    (hasNext : (s.stage p).hasNext = stage.hasNext) : Sound (s.setStage p stage) := by
  refine sound.of_pointers sound.balanced sound.distinct sound.files rfl
    (fun _ _ => ⟨rfl, rfl⟩) ((sound.ip p).trans hasIp) ((sound.next p).trans hasNext)

theorem Sound.gain (sound : Sound s) (counted : s.cache.Counted cache ip (s.cache.count ip + 1))
    (vacant : s.pointer holder = none) :
    Balanced cache.count (update s.pointer holder (some ip)) (fun _ => 0) ∧
      cache.Distinct := by
  refine ⟨?_, counted.distinct sound.distinct⟩
  rw [counted.count]
  refine ((sound.balanced.raise ip).store holder (some ip)).hold fun jp => ?_
  rw [vacant, points_none]
  omega

theorem Sound.iget (sound : Sound s) {dev inum : UInt32} (vacant : s.pointer holder = none)
    (got : s.iget p holder dev inum = some s') :
    ∃ cache ip, s' = (s.setCache cache).setPointer holder (some ip) ∧
      Balanced s'.cache.count s'.pointer (fun _ => 0) ∧ s'.cache.Distinct := by
  obtain ⟨cache, stepped, rfl⟩ := map_eq_some_iff.mp got
  obtain ⟨ip, slot, counted⟩ := Cache.counted_iget stepped
  rw [slot]
  exact ⟨cache, ip, rfl, sound.gain counted vacant⟩

theorem Sound.idup (sound : Sound s) (ip : Ix) (referenced : 0 < s.cache.count ip)
    (vacant : s.pointer holder = none) :
    Balanced (s.idup holder ip).cache.count (s.idup holder ip).pointer (fun _ => 0) ∧
      (s.idup holder ip).cache.Distinct :=
  sound.gain (Cache.counted_of_setInode rfl rfl rfl fun _ => referenced) vacant

theorem Sound.namei (sound : Sound s) {absolute : Bool} {elements : Nat} (out : s.stage p = .out)
    (called : s.namei p goal absolute elements = some s') : Sound s' := by
  have vacant : s.pointer (.ip p) = none := sound.pointer_ip (by rw [out]; rfl)
  have next : s.pointer (.next p) = none := sound.pointer_next (by rw [out]; rfl)
  unfold System.namei at called
  split at called
  next => cases called
  next cwd here =>
    obtain ⟨t, gained, rfl⟩ := map_eq_some_iff.mp called
    have after : ∃ cache ip, t = (s.setCache cache).setPointer (.ip p) (some ip) ∧
        Balanced t.cache.count t.pointer (fun _ => 0) ∧ t.cache.Distinct := by
      split at gained
      next => exact sound.iget vacant gained
      next =>
        cases gained
        have referenced := sound.balanced.positive_of_slot (Int.le_refl 0) here
        exact ⟨_, cwd, rfl, sound.idup cwd referenced vacant⟩
    obtain ⟨cache, ip, rfl, balanced, distinct⟩ := after
    refine sound.of_pointers balanced distinct ?_ rfl ?_ ?_ ?_
    · simpa using sound.files
    · intro q other
      simp [other]
    · simp [Stage.hasIp]
    · simp [next, Stage.hasNext]

theorem Sound.ilock (sound : Sound s) (called : s.ilock p = some s') : Sound s' := by
  unfold System.ilock at called
  split at called
  next goal left ip stage here =>
    obtain ⟨cache, locked, rfl⟩ := map_eq_some_iff.mp called
    refine sound.still (Cache.counted_ilock locked) ?_ ?_
    · rw [stage]
      cases left <;> rfl
    · rw [stage]
      cases left <;> rfl
  next => cases called

theorem Sound.dirlookup (sound : Sound s) {inum : Option UInt32}
    (called : s.dirlookup p inum = some s') : Sound s' := by
  unfold System.dirlookup at called
  split at called
  next goal left ip stage here =>
    have fails : Sound (s.setStage p (.leave goal none)) :=
      sound.stays (by rw [stage]; rfl) (by rw [stage]; rfl)
    split at called
    next =>
      cases called
      exact fails
    next =>
      split at called
      next =>
        cases called
        exact fails
      next inum =>
        obtain ⟨t, got, rfl⟩ := map_eq_some_iff.mp called
        have vacant : s.pointer (.next p) = none :=
          sound.pointer_next (by rw [stage]; rfl)
        obtain ⟨cache, jp, rfl, balanced, distinct⟩ := sound.iget vacant got
        refine sound.of_pointers balanced distinct ?_ rfl ?_ ?_ ?_
        · simpa using sound.files
        · intro q other
          simp [other]
        · simp [here, Stage.hasIp]
        · simp [Stage.hasNext]
  next => cases called

theorem Sound.nameiparent (sound : Sound s) (called : s.nameiparent p = some s') : Sound s' := by
  unfold System.nameiparent at called
  split at called
  next goal left ip stage here =>
    obtain ⟨cache, unlocked, rfl⟩ := map_eq_some_iff.mp called
    exact sound.still (Cache.counted_iunlock unlocked) (by rw [stage]; rfl) (by rw [stage]; rfl)
  next => cases called

theorem Sound.iunlock (sound : Sound s) (called : s.iunlock p = some s') : Sound s' := by
  unfold System.iunlock at called
  split at called
  next goal left ip stage here =>
    obtain ⟨cache, unlocked, rfl⟩ := map_eq_some_iff.mp called
    exact sound.still (Cache.counted_iunlock unlocked) (by rw [stage]; rfl) (by rw [stage]; rfl)
  next => cases called

theorem Sound.lower (sound : Sound s) {source : Holder P}
    (counted : s.cache.Counted cache ip (s.cache.count ip - 1))
    (here : s.pointer holder = some ip) (other : source ≠ holder) :
    Balanced cache.count
      (update (update s.pointer holder (s.pointer source)) source none)
        fun _ => 0 := by
  have referenced := sound.balanced.positive_of_slot (Int.le_refl 0) here
  rw [counted.count]
  refine ((sound.balanced.lower referenced).move other).hold fun jp => ?_
  rw [here]
  omega

theorem Sound.dropped (sound : Sound s) (puts : s.putting p = some ip)
    (counted : s.cache.Counted cache ip (s.cache.count ip - 1)) :
    Sound ((s.setCache cache).dropped p) := by
  obtain ⟨holder, dropping, here⟩ := bind_eq_some_iff.mp puts
  have next := sound.next p
  unfold System.dropping at dropping
  split at dropping
  next goal left stage =>
    cases dropping
    have same : (s.setCache cache).stage p = .drop goal left := stage
    unfold System.dropped
    rw [same]
    rw [stage] at next
    refine sound.of_pointers (sound.lower counted here (by simp))
      (counted.distinct sound.distinct) ?_ rfl ?_ ?_ ?_
    · simpa using sound.files
    · intro q other
      simp [other]
    · cases left with
      | none | some left => simpa [Stage.hasIp, Stage.hasNext] using next
    · cases left <;> simp [Stage.hasNext]
  next stage =>
    cases dropping
    have same : (s.setCache cache).stage p = .swap := stage
    unfold System.dropped
    rw [same]
    rw [stage] at next
    refine sound.of_pointers (sound.lower counted here (by simp))
      (counted.distinct sound.distinct) ?_ rfl ?_ ?_ ?_
    · simpa using sound.files
    · intro q other
      simp [other]
    · simp [Stage.hasIp]
    · simpa [Stage.hasNext] using next
  next => cases dropping

theorem Sound.iput (sound : Sound s) (idle : s.cache.phase p = .idle)
    (called : s.iput p = some s') : Sound s' := by
  unfold System.iput at called
  split at called
  next => cases called
  next ip puts =>
    obtain ⟨cache, put, rfl⟩ := map_eq_some_iff.mp called
    rcases Cache.counted_iput idle put with ⟨⟨freed, freeing⟩, counted⟩ | ⟨done, counted⟩
    · rw [freeing]
      exact sound.inCache counted
    · rw [done]
      exact sound.dropped puts counted

theorem Sound.finish (sound : Sound s) (called : s.finish p = some s') : Sound s' := by
  obtain ⟨ip, puts, rfl⟩ := map_eq_some_iff.mp called
  exact sound.dropped puts (s.cache.counted_finish p ip)

theorem Sound.opened (sound : Sound s) {jp : Ix} {f : FileIx} {ofile : P × Fd → Option FileIx}
    (counted : s.cache.Counted cache jp (s.cache.count jp)) (stage : s.stage p = .final goal)
    (here : s.pointer (.ip p) = some ip) (free : s.fileRef f = 0) :
    Sound ((({ s with
      cache := cache, fileRef := update s.fileRef f 1, ofile := ofile }.setPointer
        (.file f) (some ip)).setPointer (.ip p) none).setStage p .out) := by
  have vacant := sound.files f free
  refine sound.of_pointers ?_ (counted.distinct sound.distinct) ?_ rfl ?_ ?_ ?_
  · change Balanced cache.count
      (update (update s.pointer (.file f) (some ip)) (.ip p) none) _
    rw [counted.same, ← here]
    refine (sound.balanced.move (by simp)).hold fun jp => ?_
    rw [vacant, points_none]
    rfl
  · intro g zero
    change update s.fileRef f 1 g = 0 at zero
    by_cases mine : g = f
    · rw [mine, update_self] at zero
      cases zero
    · rw [update_of_ne mine] at zero
      simpa [mine] using sound.files g zero
  · intro q other
    simp [other]
  · simp [Stage.hasIp]
  · have next := sound.pointer_next (by rw [stage]; rfl)
    simp [next, Stage.hasNext]

theorem Sound.conclude (sound : Sound s) (called : s.conclude p = some s') : Sound s' := by
  unfold System.conclude at called
  split at called
  next rdonly ip stage here =>
    have fails : Sound (s.setStage p (.leave (.open rdonly) none)) :=
      sound.stays (by rw [stage]; rfl) (by rw [stage]; rfl)
    split at called
    next =>
      cases called
      exact fails
    next =>
      split at called
      next f fd free _ =>
        obtain ⟨cache, unlocked, rfl⟩ := map_eq_some_iff.mp called
        have zero := List.find?_some free
        exact sound.opened (Cache.counted_iunlock unlocked) stage here
          (of_decide_eq_true zero)
      next =>
        cases called
        exact fails
  next ip stage here =>
    split at called
    next =>
      cases called
      exact sound.stays (by rw [stage]; rfl) (by rw [stage]; rfl)
    next =>
      obtain ⟨cache, unlocked, rfl⟩ := map_eq_some_iff.mp called
      exact sound.still (Cache.counted_iunlock unlocked) (by rw [stage]; rfl)
        (by rw [stage]; rfl)
  next => cases called

theorem Sound.fork (sound : Sound s) {q : P} (called : s.fork p q = some s') : Sound s' := by
  unfold System.fork at called
  split at called
  next cwd here vacant =>
    cases called
    have referenced := sound.balanced.positive_of_slot (Int.le_refl 0) here
    obtain ⟨balanced, distinct⟩ := sound.idup cwd referenced vacant
    refine ⟨balanced, distinct, ?_, ?_, ?_⟩
    · intro f zero
      change update s.pointer (.cwd q) (some cwd) (.file f) = none
      rw [update_of_ne (by simp)]
      exact sound.files f (Nat.eq_zero_of_add_eq_zero_right zero)
    · intro r
      change (update s.pointer (.cwd q) (some cwd) (.ip r)).isSome = _
      rw [update_of_ne (by simp)]
      exact sound.ip r
    · intro r
      change (update s.pointer (.cwd q) (some cwd) (.next r)).isSome = _
      rw [update_of_ne (by simp)]
      exact sound.next r
  next => cases called

theorem Sound.fileread (sound : Sound s) {fd : Fd} (out : s.stage p = .out)
    (called : s.fileread p fd = some s') : Sound s' := by
  unfold System.fileread at called
  split at called
  next => cases called
  next f _ =>
    split at called
    next => cases called
    next ip here =>
      obtain ⟨cache, locked, rfl⟩ := map_eq_some_iff.mp called
      exact sound.still (Cache.counted_ilock locked) (by rw [out]; rfl) (by rw [out]; rfl)

theorem Sound.endread (sound : Sound s) (called : s.endread p = some s') : Sound s' := by
  unfold System.endread at called
  split at called
  next f stage =>
    split at called
    next => cases called
    next ip here =>
      obtain ⟨cache, unlocked, rfl⟩ := map_eq_some_iff.mp called
      exact sound.still (Cache.counted_iunlock unlocked) (by rw [stage]; rfl)
        (by rw [stage]; rfl)
  next => cases called

theorem Sound.step (sound : Sound s) {call : Call P} (stepped : s.step call = some s') :
    Sound s' := by
  cases call with
  | rescan p =>
    simp only [System.step] at stepped
    split at stepped
    next ip _ =>
      obtain ⟨cache, locked, rfl⟩ := map_eq_some_iff.mp stepped
      exact sound.inCache (Cache.counted_ilock locked)
    next => cases stepped
  | stir p =>
    simp only [System.step] at stepped
    split at stepped
    next ip _ =>
      cases stepped
      exact sound.inCache
        (Cache.counted_of_setInode (update_eq_self ip _).symm rfl rfl id)
    next => cases stepped
  | load p =>
    simp only [System.step] at stepped
    split at stepped
    next ip _ =>
      obtain ⟨cache, loaded, rfl⟩ := map_eq_some_iff.mp stepped
      exact sound.inCache (Cache.counted_load loaded)
    next => cases stepped
  | free p =>
    simp only [System.step] at stepped
    split at stepped
    next ip _ =>
      cases stepped
      exact sound.inCache (s.cache.counted_free p ip)
    next => cases stepped
  | finish p =>
    simp only [System.step] at stepped
    split at stepped
    next => exact sound.finish stepped
    next => cases stepped
  | namei p goal absolute elements =>
    obtain ⟨enabled, called⟩ := ite_none_right_eq_some.mp stepped
    exact sound.namei enabled.2 called
  | ilock p => exact sound.ilock (ite_none_right_eq_some.mp stepped).2
  | dirlookup p inum => exact sound.dirlookup (ite_none_right_eq_some.mp stepped).2
  | nameiparent p => exact sound.nameiparent (ite_none_right_eq_some.mp stepped).2
  | iunlock p => exact sound.iunlock (ite_none_right_eq_some.mp stepped).2
  | iput p =>
    obtain ⟨idle, called⟩ := ite_none_right_eq_some.mp stepped
    exact sound.iput idle called
  | conclude p => exact sound.conclude (ite_none_right_eq_some.mp stepped).2
  | fork p q => exact sound.fork (ite_none_right_eq_some.mp stepped).2
  | fileread p fd =>
    obtain ⟨enabled, called⟩ := ite_none_right_eq_some.mp stepped
    exact sound.fileread enabled.2 called
  | endread p => exact sound.endread (ite_none_right_eq_some.mp stepped).2

omit [Fintype P] in
@[simp] theorem pointer_userinit (p : P) (disk : UInt32 × UInt32 → Dinode) (holder : Holder P) :
    (userinit p disk).pointer holder = if holder = .cwd p then some 0 else none := rfl

theorem sound_userinit (p : P) (disk : UInt32 × UInt32 → Dinode) : Sound (userinit p disk) where
  balanced := by
    have nothing : Balanced (fun _ : Ix => 0) (fun _ : Holder P => none) fun _ => 0 := by
      intro ip
      rw [tally_const_zero _ _ (points_none ip)]
      rfl
    have pointers : (userinit p disk).pointer =
        update (fun _ => none) (.cwd p) (some 0) := by
      funext holder
      rw [update_apply, pointer_userinit]
    have counts : (userinit p disk).cache.count =
        update (Cache.iinit disk : Cache P).count 0 (0 + 1) :=
      Cache.count_update rfl rfl
    rw [pointers, counts]
    refine ((nothing.raise 0).store (.cwd p) (some 0)).hold fun ip => ?_
    rw [points_none]
    omega
  distinct := by
    intro ip jp first second _
    have only : ∀ ip, 0 < (userinit p disk).cache.count ip → ip = 0 := by
      intro ip positive
      by_contra other
      have entry : (userinit p disk).cache.inode ip = ⟨⟨0, 0⟩, 0, 0, 0, false, false⟩ :=
        update_of_ne other ..
      rw [Cache.count, entry] at positive
      cases positive
    rw [only ip first, only jp second]
  files := fun f _ => by simp
  ip := fun q => by simp [userinit, Stage.hasIp]
  next := fun q => by simp [userinit, Stage.hasNext]

def referenced (s : System P) : Finset (UInt32 × UInt32) :=
  (Finset.univ.filter fun ip => ∃ holder, s.pointer holder = some ip).image
    fun ip => (s.cache.inode ip).key

omit [DecidableEq P] in
theorem Sound.card_referenced (sound : Sound s) :
    s.referenced.card + (Finset.univ.filter fun ip => s.cache.count ip = 0).card = ninode := by
  have used : (Finset.univ.filter fun ip => ∃ holder, s.pointer holder = some ip) =
      Finset.univ.filter fun ip => ¬s.cache.count ip = 0 := by
    ext ip
    simp only [Finset.mem_filter, Finset.mem_univ, true_and, ← Nat.pos_iff_ne_zero]
    constructor
    · rintro ⟨holder, here⟩
      exact sound.balanced.positive_of_slot (Int.le_refl 0) here
    · exact fun positive => sound.balanced.exists_slot positive rfl
  rw [referenced, used, Finset.card_image_of_injOn, Nat.add_comm,
    Finset.card_filter_add_card_filter_not, Finset.card_univ, Fintype.card_fin]
  intro ip first jp second same
  have positive : ∀ {ip}, ip ∈ (↑(Finset.univ.filter fun ip => ¬s.cache.count ip = 0) : Set Ix) →
      0 < s.cache.count ip := fun member =>
    Nat.pos_of_ne_zero (Finset.mem_filter.mp (Finset.mem_coe.mp member)).2
  exact sound.distinct ip jp (positive first) (positive second) same

omit [Fintype P] [DecidableEq P] in
theorem empty_iff (c : Cache P) :
    (∃ ip, c.empty = some ip) ↔ 0 < (Finset.univ.filter fun ip => c.count ip = 0).card := by
  rw [Finset.card_pos, ← isSome_iff_exists, Cache.empty, List.find?_isSome]
  constructor
  · rintro ⟨ip, _, free⟩
    exact ⟨ip, Finset.mem_filter.mpr ⟨Finset.mem_univ ip, of_decide_eq_true free⟩⟩
  · rintro ⟨ip, member⟩
    exact ⟨ip, List.mem_finRange ip, decide_eq_true (Finset.mem_filter.mp member).2⟩

omit [Fintype P] [DecidableEq P] in
theorem exists_uncached (c : Cache P) : ∃ inum, c.cached 1 inum = none := by
  obtain ⟨inum, other⟩ := exists_word_ne (by decide) fun ip => (c.inode ip).inum
  refine ⟨inum, List.find?_eq_none.mpr fun ip _ here => ?_⟩
  simp only [Bool.and_eq_true, decide_eq_true_eq] at here
  exact other ip (Prod.mk.inj here.2).2

def flatDisk : UInt32 × UInt32 → Dinode := fun key => if key.2 = 1 then ⟨tDir, 1⟩ else ⟨2, 1⟩

def openRoot (p : P) : List (Call P) :=
  [.namei p (.open true) true 0, .ilock p, .load p, .conclude p]

def openFile (p : P) (inum : UInt32) : List (Call P) :=
  [.namei p (.open true) true 1, .ilock p, .dirlookup p (some inum), .iunlock p, .iput p,
    .ilock p, .load p, .conclude p]

/-- Four processes open 49 files, 15 the first three of them, and the last looks up another. -/
def openMany : List (Call (Fin 64)) :=
  openRoot 0 ++ [.fork 0 1, .fork 0 2, .fork 0 3] ++
    (List.range 49).flatMap (fun i => openFile (Fin.ofNat 64 (i / 15)) (.ofNat (i + 2))) ++
    [.namei 3 (.open true) true 1, .ilock 3]

end System

end StraceXv6.Kernel.Icache
