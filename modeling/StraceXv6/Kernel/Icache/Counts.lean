import StraceXv6.Data.Update
import StraceXv6.Kernel.Icache.Machine

namespace StraceXv6.Kernel.Icache

open List Function Data

/-! The references of the entries, and the locks. -/

namespace Cache

variable {P : Type}

def Holds (c : Cache P) (p : P) (ip : Ix) : Prop :=
  c.locked (p, ip) = true ∨ ∃ freed, c.phase p = .freeing ip freed

def Waits (c : Cache P) (p : P) (ip : Ix) : Prop := c.phase p = .asleep ip ∨ c.phase p = .awake ip

section

variable {c c' : Cache P} {p : P} {ip jp : Ix} {phase : Phase}

theorem freeing_of_wake {freed : Bool} (after : phase.wake ip = .freeing jp freed) :
    phase = .freeing jp freed := by
  cases phase with
  | asleep kp =>
    simp only [Phase.wake] at after
    split at after
    all_goals exact absurd after (by simp)
  | _ => exact after

theorem loading_of_wake (after : phase.wake ip = .loading jp) : phase = .loading jp := by
  cases phase with
  | asleep kp =>
    simp only [Phase.wake] at after
    split at after
    all_goals exact absurd after (by simp)
  | _ => exact after

theorem waits_of_wake (after : phase.wake ip = .asleep jp ∨ phase.wake ip = .awake jp) :
    phase = .asleep jp ∨ phase = .awake jp := by
  cases phase with
  | asleep kp =>
    simp only [Phase.wake] at after
    split at after
    all_goals simpa using after
  | _ => exact after

variable [DecidableEq P]

theorem freeing_of_update (phases : c'.phase = update c.phase p phase)
    (quiet : ∀ jp freed, phase ≠ .freeing jp freed) (q : P) (jp : Ix) (freed : Bool)
    (after : c'.phase q = .freeing jp freed) : c.phase q = .freeing jp freed ∧ q ≠ p := by
  rw [phases] at after
  exact (of_update_ne after (quiet jp freed)).symm

theorem exists_freeing_of_update (phases : c'.phase = update c.phase p phase)
    (quiet : ∀ jp freed, phase ≠ .freeing jp freed) (q : P) (jp : Ix) (freed : Bool)
    (after : c'.phase q = .freeing jp freed) : ∃ freed', c.phase q = .freeing jp freed' :=
  ⟨freed, (freeing_of_update phases quiet q jp freed after).1⟩

theorem freeing_of_begin {begun : Bool}
    (phases : c'.phase = update c.phase p (.freeing ip begun)) (q : P) (jp : Ix)
    (freed : Bool) (after : c'.phase q = .freeing jp freed) :
    c.phase q = .freeing jp freed ∨ q = p ∧ jp = ip := by
  rw [phases] at after
  rcases of_update after with ⟨mine, begun⟩ | ⟨_, before⟩
  · exact .inr ⟨mine, (Phase.freeing.inj begun).1.symm⟩
  · exact .inl before

theorem loading_of_update (phases : c'.phase = update c.phase p phase)
    (quiet : ∀ jp, phase ≠ .loading jp) (q : P) (jp : Ix) (after : c'.phase q = .loading jp) :
    c.phase q = .loading jp := by
  rw [phases] at after
  exact (of_update_ne after (quiet jp)).2

theorem waits_of_update (phases : c'.phase = update c.phase p phase) {goal : Prop} (q : P)
    (jp : Ix) (others : c.Waits q jp → goal)
    (mine : phase = .asleep jp ∨ phase = .awake jp → q = p → goal) (after : c'.Waits q jp) :
    goal := by
  unfold Waits at after
  rw [phases] at after
  by_cases same : q = p
  · rw [same, update_self] at after
    exact mine after same
  · rw [update_of_ne same] at after
    exact others after

end

structure Kept (c : Cache P) : Prop where
  counted : ∀ ip, (c.refs.filter fun handed => handed.2 = ip).length = (c.inode ip).ref
  unique : ∀ ip jp, 0 < (c.inode ip).ref → 0 < (c.inode jp).ref →
    (c.inode ip).key = (c.inode jp).key → ip = jp
  freeing : ∀ p ip freed, c.phase p = .freeing ip freed → (p, ip) ∈ c.refs

namespace Kept

variable {c c' : Cache P} {p : P} {ip : Ix}

theorem referenced (kept : Kept c) (member : (p, ip) ∈ c.refs) : 0 < (c.inode ip).ref := by
  rw [← kept.counted ip]
  exact length_pos_of_mem (mem_filter.mpr ⟨member, by simp⟩)

theorem same (kept : Kept c) (refs : c'.refs = c.refs)
    (ref : ∀ ip, (c'.inode ip).ref = (c.inode ip).ref)
    (key : ∀ ip, (c'.inode ip).key = (c.inode ip).key)
    (freeing : ∀ p ip freed, c'.phase p = .freeing ip freed → (p, ip) ∈ c.refs) : Kept c' := by
  refine ⟨?_, ?_, ?_⟩
  · intro ip
    rw [refs, ref]
    exact kept.counted ip
  · intro ip jp
    rw [ref, ref, key, key]
    exact kept.unique ip jp
  · rw [refs]
    exact freeing

variable {inode : Inode}

theorem setInode (kept : Kept c) (inodes : c'.inode = update c.inode ip inode)
    (refs : c'.refs = c.refs) (ref : inode.ref = (c.inode ip).ref)
    (key : inode.key = (c.inode ip).key)
    (freeing : ∀ p ip freed, c'.phase p = .freeing ip freed → (p, ip) ∈ c.refs) : Kept c' := by
  refine kept.same refs ?_ ?_ freeing
  all_goals rw [inodes]
  · exact apply_update_eq Inode.ref ref
  · exact apply_update_eq Inode.key key

theorem gain (kept : Kept c) {q : P} (inodes : c'.inode = update c.inode ip inode)
    (refs : c'.refs = (q, ip) :: c.refs) (ref : inode.ref = (c.inode ip).ref + 1)
    (key : ∀ jp, jp ≠ ip → 0 < (c.inode jp).ref → (c.inode jp).key ≠ inode.key)
    (freeing : ∀ p ip freed, c'.phase p = .freeing ip freed → (p, ip) ∈ c.refs) : Kept c' := by
  have here : c'.inode ip = inode := by rw [inodes, update_self]
  have there : ∀ jp, jp ≠ ip → c'.inode jp = c.inode jp := fun jp other => by
    rw [inodes, update_of_ne other]
  refine ⟨?_, ?_, ?_⟩
  · intro jp
    rw [refs]
    by_cases mine : jp = ip
    · rw [mine, here, ref, filter_cons_of_pos (by simp), length_cons, kept.counted]
    · rw [there jp mine, filter_cons_of_neg (by simpa using Ne.symm mine), kept.counted]
  · intro jp kp
    by_cases first : jp = ip
    · by_cases second : kp = ip
      · exact fun _ _ _ => first.trans second.symm
      · rw [first, here, there kp second]
        exact fun _ positive equal => absurd equal.symm (key kp second positive)
    · by_cases second : kp = ip
      · rw [second, here, there jp first]
        exact fun positive _ equal => absurd equal (key jp first positive)
      · rw [there jp first, there kp second]
        exact kept.unique jp kp
  · intro p jp freed phase
    rw [refs]
    exact mem_cons_of_mem _ (freeing p jp freed phase)

variable [DecidableEq P]

theorem lose (kept : Kept c) (inodes : c'.inode = update c.inode ip inode)
    (refs : c'.refs = c.refs.erase (p, ip)) (member : (p, ip) ∈ c.refs)
    (ref : inode.ref = (c.inode ip).ref - 1) (key : inode.key = (c.inode ip).key)
    (freeing : ∀ q jp freed, c'.phase q = .freeing jp freed → (q, jp) ∈ c.refs ∧ q ≠ p) :
    Kept c' := by
  have positive := kept.referenced member
  have here : c'.inode ip = inode := by rw [inodes, update_self]
  have there : ∀ jp, jp ≠ ip → c'.inode jp = c.inode jp := fun jp other => by
    rw [inodes, update_of_ne other]
  have before : ∀ jp, 0 < (c'.inode jp).ref → 0 < (c.inode jp).ref ∧
      (c'.inode jp).key = (c.inode jp).key := by
    intro jp
    by_cases mine : jp = ip
    · rw [mine, here]
      exact fun _ => ⟨positive, key⟩
    · rw [there jp mine]
      exact fun after => ⟨after, rfl⟩
  refine ⟨?_, ?_, ?_⟩
  · intro jp
    have split := (perm_cons_erase member).filter fun handed => handed.2 = jp
    have total := split.length_eq
    rw [kept.counted jp] at total
    rw [refs]
    by_cases mine : jp = ip
    · rw [mine, filter_cons_of_pos (by simp), length_cons] at total
      rw [mine, here, ref]
      omega
    · rw [filter_cons_of_neg (by simpa using Ne.symm mine)] at total
      rw [there jp mine]
      exact total.symm
  · intro jp kp first second
    rw [(before jp first).2, (before kp second).2]
    exact kept.unique jp kp (before jp first).1 (before kp second).1
  · intro q jp freed phase
    rw [refs]
    obtain ⟨among, other⟩ := freeing q jp freed phase
    exact (mem_erase_of_ne fun equal => other (Prod.mk.inj equal).1).mpr among

theorem moved (kept : Kept c) {label : Label P} (moved : Moved c label c') : Kept c' := by
  cases moved with
  | @got p ip _ _ positive =>
    refine kept.gain rfl rfl rfl ?_ fun q jp freed after =>
      kept.freeing q jp freed (freeing_of_update rfl (by simp) q jp freed after).1
    exact fun jp other first same => other (kept.unique jp ip first positive same)
  | @recycled p ip dev inum _ _ free missing =>
    refine kept.gain rfl rfl ?_ ?_ fun q jp freed after =>
      kept.freeing q jp freed (freeing_of_update rfl (by simp) q jp freed after).1
    · rw [free]
    · exact fun jp _ positive => missing jp positive
  | @duplicated p q ip has =>
    have positive := kept.referenced has.2
    refine kept.gain rfl rfl rfl ?_ kept.freeing
    exact fun jp other first same => other (kept.unique jp ip first positive same)
  | slept | stirred | found =>
    exact kept.same rfl (fun _ => rfl) (fun _ => rfl) fun q jp freed after =>
      kept.freeing q jp freed (freeing_of_update rfl (by simp) q jp freed after).1
  | took =>
    refine kept.setInode rfl rfl rfl rfl fun q jp freed after =>
      kept.freeing q jp freed (freeing_of_update rfl ?_ q jp freed after).1
    intro jp freed
    split <;> simp
  | loaded =>
    exact kept.setInode rfl rfl rfl rfl fun q jp freed after =>
      kept.freeing q jp freed (freeing_of_update rfl (by simp) q jp freed after).1
  | relinked => exact kept.setInode rfl rfl rfl rfl kept.freeing
  | updated => exact kept.same rfl (fun _ => rfl) (fun _ => rfl) kept.freeing
  | unlocked =>
    exact kept.setInode rfl rfl rfl rfl fun q jp freed after =>
      kept.freeing q jp freed (freeing_of_wake after)
  | @put p ip has =>
    refine kept.lose rfl rfl has.2 rfl rfl fun q jp freed after => ⟨kept.freeing q jp freed after, ?_⟩
    rintro rfl
    exact absurd (has.1.symm.trans after) (by simp)
  | began has =>
    refine kept.setInode rfl rfl rfl rfl ?_
    intro q jp freed after
    cases freeing_of_begin rfl q jp freed after with
    | inl before => exact kept.freeing q jp freed before
    | inr new =>
      rw [new.1, new.2]
      exact has.2
  | freed phase =>
    refine kept.setInode rfl rfl rfl rfl ?_
    intro q jp freed after
    cases freeing_of_begin rfl q jp freed after with
    | inl before => exact kept.freeing q jp freed before
    | inr new =>
      rw [new.1, new.2]
      exact kept.freeing _ _ false phase
  | @finished p ip phase =>
    refine kept.lose rfl rfl (kept.freeing p ip true phase) rfl rfl ?_
    intro q jp freed after
    obtain ⟨before, other⟩ := freeing_of_update (show (c.setPhase p .idle).phase = _ from rfl)
      (by simp) q jp freed (freeing_of_wake after)
    exact ⟨kept.freeing q jp freed before, other⟩

end Kept

structure Exclusive (c : Cache P) : Prop where
  busy : ∀ p ip, c.Holds p ip → (c.inode ip).busy = true
  alone : ∀ p q ip, c.Holds p ip → c.Holds q ip → p = q
  refs : ∀ p ip, c.Holds p ip ∨ c.Waits p ip → (p, ip) ∈ c.refs
  apart : ∀ p ip freed, c.locked (p, ip) = true → c.phase p ≠ .freeing ip freed

namespace Exclusive

variable {c c' : Cache P} {p : P} {ip : Ix}

theorem member (exclusive : Exclusive c) (holds : c.Has p ip ∨ c.phase p = .awake ip) :
    (p, ip) ∈ c.refs :=
  holds.elim And.right fun awake => exclusive.refs p ip (.inr (.inr awake))

variable {inode : Inode}

theorem grab (exclusive : Exclusive c) (inodes : c'.inode = update c.inode ip inode)
    (refs : c'.refs = c.refs) (idle : (c.inode ip).busy = false) (busy : inode.busy = true)
    (member : (p, ip) ∈ c.refs) (holds : ∀ q jp, c'.Holds q jp → c.Holds q jp ∨ q = p ∧ jp = ip)
    (waits : ∀ q jp, c'.Waits q jp → c.Waits q jp)
    (apart : ∀ q jp freed, c'.locked (q, jp) = true → c'.phase q ≠ .freeing jp freed) :
    Exclusive c' := by
  have elsewhere : ∀ q jp, c.Holds q jp → jp ≠ ip := by
    rintro q jp before rfl
    exact absurd ((exclusive.busy q jp before).symm.trans idle) (by simp)
  refine ⟨?_, ?_, ?_, apart⟩
  · intro q jp after
    rw [inodes]
    cases holds q jp after with
    | inl before =>
      rw [update_of_ne (elsewhere q jp before)]
      exact exclusive.busy q jp before
    | inr new => rw [new.2, update_self, busy]
  · intro q r jp first second
    cases holds q jp first with
    | inl before =>
      cases holds r jp second with
      | inl also => exact exclusive.alone q r jp before also
      | inr new => exact absurd new.2 (elsewhere q jp before)
    | inr new =>
      cases holds r jp second with
      | inl before => exact absurd new.2 (elsewhere r jp before)
      | inr also => exact new.1.trans also.1.symm
  · intro q jp after
    rw [refs]
    cases after with
    | inl now =>
      cases holds q jp now with
      | inl before => exact exclusive.refs q jp (.inl before)
      | inr new =>
        rw [new.1, new.2]
        exact member
    | inr now => exact exclusive.refs q jp (.inr (waits q jp now))

theorem keep (exclusive : Exclusive c)
    (locked : ∀ q jp, c'.locked (q, jp) = true → c.locked (q, jp) = true)
    (freeing : ∀ q jp freed, c'.phase q = .freeing jp freed →
      ∃ freed', c.phase q = .freeing jp freed')
    (busy : ∀ q jp, c'.Holds q jp → (c.inode jp).busy = true → (c'.inode jp).busy = true)
    (waits : ∀ q jp, c'.Waits q jp → (q, jp) ∈ c.refs)
    (refs : ∀ q jp, c'.Holds q jp ∨ c'.Waits q jp → (q, jp) ∈ c.refs → (q, jp) ∈ c'.refs) :
    Exclusive c' := by
  have holds : ∀ q jp, c'.Holds q jp → c.Holds q jp := by
    intro q jp after
    cases after with
    | inl now => exact .inl (locked q jp now)
    | inr now =>
      obtain ⟨freed, phase⟩ := now
      exact .inr (freeing q jp freed phase)
  refine ⟨?_, ?_, ?_, ?_⟩
  · exact fun q jp after => busy q jp after (exclusive.busy q jp (holds q jp after))
  · exact fun q r jp first second => exclusive.alone q r jp (holds q jp first) (holds r jp second)
  · intro q jp after
    refine refs q jp after ?_
    cases after with
    | inl now => exact exclusive.refs q jp (.inl (holds q jp now))
    | inr now => exact waits q jp now
  · intro q jp freed now phase
    obtain ⟨freed', before⟩ := freeing q jp freed phase
    exact exclusive.apart q jp freed' (locked q jp now) before

theorem edit (exclusive : Exclusive c) (inodes : c'.inode = update c.inode ip inode)
    (busy : inode.busy = (c.inode ip).busy) (locked : c'.locked = c.locked)
    (freeing : ∀ q jp freed, c'.phase q = .freeing jp freed →
      ∃ freed', c.phase q = .freeing jp freed') (waits : ∀ q jp, c'.Waits q jp → (q, jp) ∈ c.refs)
    (refs : ∀ q jp, c'.Holds q jp ∨ c'.Waits q jp → (q, jp) ∈ c.refs → (q, jp) ∈ c'.refs) :
    Exclusive c' := by
  refine exclusive.keep (by simp [locked]) freeing ?_ waits refs
  intro q jp _ before
  rw [inodes, apply_update_eq Inode.busy busy]
  exact before

theorem release (exclusive : Exclusive c) (holds : c.Holds p ip)
    (inodes : c'.inode = update c.inode ip inode)
    (locked : ∀ q jp, c'.locked (q, jp) = true → c.locked (q, jp) = true ∧ (q, jp) ≠ (p, ip))
    (freeing : ∀ q jp freed, c'.phase q = .freeing jp freed →
      c.phase q = .freeing jp freed ∧ (q, jp) ≠ (p, ip))
    (waits : ∀ q jp, c'.Waits q jp → c.Waits q jp)
    (refs : ∀ q jp, c'.Holds q jp ∨ c'.Waits q jp → (q, jp) ∈ c.refs → (q, jp) ∈ c'.refs) :
    Exclusive c' := by
  have others : ∀ q jp, c'.Holds q jp → jp ≠ ip := by
    rintro q jp after rfl
    cases after with
    | inl now =>
      obtain ⟨before, other⟩ := locked q jp now
      exact other (by rw [exclusive.alone q p jp (.inl before) holds])
    | inr now =>
      obtain ⟨freed, phase⟩ := now
      obtain ⟨before, other⟩ := freeing q jp freed phase
      exact other (by rw [exclusive.alone q p jp (.inr ⟨freed, before⟩) holds])
  refine exclusive.keep (fun q jp now => (locked q jp now).1) ?_ ?_ ?_ refs
  · exact fun q jp freed phase => ⟨freed, (freeing q jp freed phase).1⟩
  · intro q jp after
    rw [inodes, update_of_ne (others q jp after)]
    exact id
  · exact fun q jp after => exclusive.refs q jp (.inr (waits q jp after))

variable [DecidableEq P]

end Exclusive

/-- A process unlocks an entry before it puts its last reference to it. -/
def Unlocks [DecidableEq P] (c : Cache P) : Label P → Prop
  | .iput p ip => c.locked (p, ip) = true → 2 ≤ c.refs.count (p, ip)
  | _ => True

instance decidableUnlocks [DecidableEq P] (c : Cache P) (label : Label P) :
    Decidable (c.Unlocks label) :=
  match label with
  | .iput _ _ => inferInstanceAs (Decidable (_ → _))
  | .iget _ _ _ | .idup _ _ _ | .ilock _ _ | .rescan _ | .stir _ | .load _ | .setNlink _ _ _
  | .iupdate _ _ | .iunlock _ _ | .free _ | .finish _ | .ialloc _ _ _ _ | .allocated _ =>
    inferInstanceAs (Decidable True)

namespace Exclusive

variable [DecidableEq P] {c c' : Cache P} {p : P} {ip : Ix}

theorem took (exclusive : Exclusive c) (holds : c.Has p ip ∨ c.phase p = .awake ip)
    (idle : (c.inode ip).busy = false) :
    Exclusive (((c.setInode ip { c.inode ip with busy := true }).setLocked p ip true).setPhase p
      (if (c.inode ip).valid then .idle else .loading ip)) := by
  have quiet : ∀ jp freed,
      (if (c.inode ip).valid then Phase.idle else .loading ip) ≠ .freeing jp freed := by
    intro jp freed
    split <;> simp
  have locked : ∀ q jp, update c.locked (p, ip) true (q, jp) = true →
      c.locked (q, jp) = true ∨ q = p ∧ jp = ip := by
    intro q jp now
    rcases of_update now with ⟨mine, _⟩ | ⟨_, before⟩
    · exact .inr (Prod.mk.inj mine)
    · exact .inl before
  refine exclusive.grab rfl rfl idle rfl (exclusive.member holds) ?_ ?_ ?_
  · intro q jp after
    cases after with
    | inl now => exact (locked q jp now).imp_left .inl
    | inr now =>
      obtain ⟨freed, phase⟩ := now
      exact .inl (.inr (exists_freeing_of_update rfl quiet q jp freed phase))
  · intro q jp
    refine waits_of_update rfl q jp id ?_
    split <;> simp
  · intro q jp freed now phase
    obtain ⟨before, other⟩ := freeing_of_update rfl quiet q jp freed phase
    cases locked q jp now with
    | inl also => exact exclusive.apart q jp freed also before
    | inr new => exact other new.1

theorem began (exclusive : Exclusive c) (has : c.Has p ip) (idle : (c.inode ip).busy = false) :
    Exclusive ((c.setInode ip { c.inode ip with busy := true }).setPhase p
      (.freeing ip false)) := by
  refine exclusive.grab rfl rfl idle rfl has.2 ?_ ?_ ?_
  · intro q jp after
    cases after with
    | inl now => exact .inl (.inl now)
    | inr now =>
      obtain ⟨freed, phase⟩ := now
      exact (freeing_of_begin rfl q jp freed phase).imp_left fun before => .inr ⟨freed, before⟩
  · exact fun q jp => waits_of_update rfl q jp id (by simp)
  · intro q jp freed now phase
    cases freeing_of_begin rfl q jp freed phase with
    | inl before => exact exclusive.apart q jp freed now before
    | inr new =>
      rw [new.2] at now
      exact absurd ((exclusive.busy q ip (.inl now)).symm.trans idle) (by simp)

theorem put (exclusive : Exclusive c) (has : c.Has p ip)
    (unlocks : c.locked (p, ip) = true → 2 ≤ c.refs.count (p, ip)) :
    Exclusive ((c.setInode ip { c.inode ip with ref := (c.inode ip).ref - 1 }).dropRef p ip) := by
  refine exclusive.edit rfl rfl rfl (fun _ _ freed phase => ⟨freed, phase⟩)
    (fun q jp waits => exclusive.refs q jp (.inr waits)) ?_
  intro q jp after member
  change (q, jp) ∈ c.refs.erase (p, ip)
  by_cases mine : (q, jp) = (p, ip)
  · obtain ⟨rfl, rfl⟩ := Prod.mk.inj mine
    have idle : c.phase q = .idle := has.1
    have locked : c.locked (q, jp) = true := by
      cases after with
      | inl holds =>
        cases holds with
        | inl now => exact now
        | inr now =>
          obtain ⟨freed, phase⟩ := now
          exact absurd (idle.symm.trans phase) (by simp)
      | inr waits => exact absurd waits (by simp [Waits, setInode, dropRef, idle])
    have several : 2 ≤ c.refs.count (q, jp) := unlocks locked
    apply count_pos_iff.mp
    rw [count_erase_self]
    omega
  · exact (mem_erase_of_ne mine).mpr member

theorem finished (exclusive : Exclusive c) (phase : c.phase p = .freeing ip true) :
    Exclusive (c.finish p ip) := by
  have quiet : ∀ q jp freed, (update c.phase p .idle q).wake ip = .freeing jp freed →
      q ≠ p ∧ c.phase q = .freeing jp freed :=
    fun q jp freed after => of_update_ne (freeing_of_wake after) (by simp)
  have elsewhere : ∀ q jp, (c.finish p ip).Holds q jp ∨ (c.finish p ip).Waits q jp →
      (q, jp) ≠ (p, ip) := by
    intro q jp after same
    obtain ⟨rfl, rfl⟩ := Prod.mk.inj same
    cases after with
    | inl holds =>
      cases holds with
      | inl now => exact exclusive.apart q jp true now phase
      | inr now =>
        obtain ⟨freed, after⟩ := now
        exact (quiet q jp freed after).1 rfl
    | inr waits => exact absurd waits (by simp [Waits, finish, wakeup, setPhase, Phase.wake])
  refine exclusive.release (.inr ⟨true, phase⟩) rfl ?_ ?_ ?_ ?_
  · intro q jp now
    refine ⟨now, fun same => ?_⟩
    obtain ⟨rfl, rfl⟩ := Prod.mk.inj same
    exact exclusive.apart q jp true now phase
  · intro q jp freed after
    obtain ⟨other, before⟩ := quiet q jp freed after
    exact ⟨before, fun same => other (Prod.mk.inj same).1⟩
  · intro q jp after
    have before : update c.phase p .idle q = .asleep jp ∨
        update c.phase p .idle q = .awake jp := waits_of_wake after
    exact waits_of_update rfl q jp id (by simp)
        (show (c.setPhase p .idle).Waits q jp from before)
  · intro q jp after member
    exact (mem_erase_of_ne (elsewhere q jp after)).mpr member

theorem moved (exclusive : Exclusive c) (kept : Kept c) {label : Label P}
    (unlocks : c.Unlocks label) (moved : Moved c label c') : Exclusive c' := by
  have waits : ∀ q jp, c.Waits q jp → (q, jp) ∈ c.refs := fun q jp waits =>
    exclusive.refs q jp (.inr waits)
  have nobody : ∀ {p phase}, c'.phase = update c.phase p phase →
      (∀ jp, phase ≠ .asleep jp ∧ phase ≠ .awake jp) → ∀ q jp, c'.Waits q jp → (q, jp) ∈ c.refs := by
    intro p phase phases quiet q jp
    exact waits_of_update phases q jp (waits q jp) (by simp [quiet])
  cases moved with
  | got =>
    exact exclusive.edit rfl rfl rfl (exists_freeing_of_update rfl (by simp)) (nobody rfl (by simp))
      fun _ _ _ => mem_cons_of_mem _
  | @recycled p ip dev inum _ _ free =>
    have unheld : ∀ q jp, (q, jp) ∈ c.refs → jp ≠ ip := by
      rintro q jp member rfl
      have positive := kept.referenced member
      omega
    refine exclusive.keep (fun _ _ => id) (exists_freeing_of_update rfl (by simp)) ?_
      (nobody rfl (by simp)) fun _ _ _ => mem_cons_of_mem _
    intro q jp after before
    have held : c.Holds q jp := by
      cases after with
      | inl now => exact .inl now
      | inr now =>
        obtain ⟨freed, phase⟩ := now
        exact .inr (exists_freeing_of_update rfl (by simp) q jp freed phase)
    change (update c.inode ip _ jp).busy = true
    rwa [update_of_ne (unheld q jp (exclusive.refs q jp (.inl held)))]
  | duplicated =>
    exact exclusive.edit rfl rfl rfl (fun _ _ freed phase => ⟨freed, phase⟩) waits
      fun _ _ _ => mem_cons_of_mem _
  | @slept p ip _ holds =>
    refine exclusive.keep (fun _ _ => id) (exists_freeing_of_update rfl (by simp)) (fun _ _ _ => id)
      ?_ fun _ _ _ => id
    intro q jp
    refine waits_of_update rfl q jp (waits q jp) ?_
    rintro asleep rfl
    rw [← show ip = jp by simpa using asleep]
    exact exclusive.member holds
  | took holds idle => exact exclusive.took holds idle
  | @stirred p ip asleep =>
    refine exclusive.keep (fun _ _ => id) (exists_freeing_of_update rfl (by simp)) (fun _ _ _ => id)
      ?_ fun _ _ _ => id
    intro q jp
    refine waits_of_update rfl q jp (waits q jp) ?_
    rintro awake rfl
    rw [← show ip = jp by simpa using awake]
    exact waits q ip (.inl asleep)
  | loaded =>
    exact exclusive.edit rfl rfl rfl (exists_freeing_of_update rfl (by simp)) (nobody rfl (by simp))
      fun _ _ _ => id
  | relinked =>
    exact exclusive.edit rfl rfl rfl (fun _ _ freed phase => ⟨freed, phase⟩) waits fun _ _ _ => id
  | updated =>
    exact exclusive.keep (fun _ _ => id) (fun _ _ freed phase => ⟨freed, phase⟩)
      (fun _ _ _ => id) waits fun _ _ _ => id
  | @unlocked p ip owns =>
    refine exclusive.release (.inl owns.2) rfl ?_ ?_ (fun _ _ => waits_of_wake)
      fun _ _ _ => id
    · exact fun q jp now => (of_update_ne now Bool.false_ne_true).symm
    · intro q jp freed after
      have before := freeing_of_wake after
      refine ⟨before, fun same => ?_⟩
      obtain ⟨rfl, rfl⟩ := Prod.mk.inj same
      exact exclusive.apart q jp freed owns.2 before
  | put has => exact exclusive.put has unlocks
  | began has _ _ idle => exact exclusive.began has idle
  | @freed p ip phase =>
    refine exclusive.edit rfl rfl rfl ?_ (nobody rfl (by simp)) fun _ _ _ => id
    intro q jp freed after
    cases freeing_of_begin rfl q jp freed after with
    | inl before => exact ⟨freed, before⟩
    | inr new =>
      rw [new.1, new.2]
      exact ⟨false, phase⟩
  | finished phase => exact exclusive.finished phase
  | found =>
    exact exclusive.keep (fun _ _ => id) (exists_freeing_of_update rfl (by simp)) (fun _ _ _ => id)
      (nobody rfl (by simp)) fun _ _ _ => id

end Exclusive

structure Dying (c : Cache P) : Prop where
  loading : ∀ p ip, c.phase p = .loading ip → c.locked (p, ip) = true
  nlink : ∀ p ip freed, c.phase p = .freeing ip freed → (c.inode ip).nlink = 0

namespace Dying

variable {c c' : Cache P} {p : P} {ip : Ix}

theorem keep (dying : Dying c)
    (nlink : ∀ q jp freed, c.phase q = .freeing jp freed →
      (c'.inode jp).nlink = (c.inode jp).nlink)
    (locked : ∀ q jp, c.phase q = .loading jp → c'.locked (q, jp) = c.locked (q, jp))
    (loading : ∀ q jp, c'.phase q = .loading jp → c.phase q = .loading jp)
    (freeing : ∀ q jp freed, c'.phase q = .freeing jp freed →
      ∃ freed', c.phase q = .freeing jp freed') : Dying c' := by
  refine ⟨?_, ?_⟩
  · intro q jp phase
    rw [locked q jp (loading q jp phase)]
    exact dying.loading q jp (loading q jp phase)
  · intro q jp freed phase
    obtain ⟨freed', before⟩ := freeing q jp freed phase
    rw [nlink q jp freed' before]
    exact dying.nlink q jp freed' before

theorem nlink_of_update {inode : Inode} (inodes : c'.inode = update c.inode ip inode)
    (same : (∃ q freed, c.phase q = .freeing ip freed) → inode.nlink = (c.inode ip).nlink) (q : P)
    (jp : Ix) (freed : Bool) (phase : c.phase q = .freeing jp freed) :
    (c'.inode jp).nlink = (c.inode jp).nlink := by
  rw [inodes]
  by_cases mine : jp = ip
  · rw [mine] at phase
    rw [mine, update_self]
    exact same ⟨q, freed, phase⟩
  · rw [update_of_ne mine]

theorem not_freeing (exclusive : Exclusive c) (locked : c.locked (p, ip) = true) (q : P)
    (freed : Bool) : c.phase q ≠ .freeing ip freed := by
  intro phase
  have same := exclusive.alone q p ip (.inr ⟨freed, phase⟩) (.inl locked)
  rw [same] at phase
  exact exclusive.apart p ip freed locked phase

variable [DecidableEq P]

theorem took (dying : Dying c) :
    Dying (((c.setInode ip { c.inode ip with busy := true }).setLocked p ip true).setPhase p
      (if (c.inode ip).valid then .idle else .loading ip)) := by
  refine ⟨?_, ?_⟩
  · intro q jp after
    change update c.locked (p, ip) true (q, jp) = true
    rcases of_update after with ⟨mine, begun⟩ | ⟨mine, before⟩
    · split at begun
      next => cases begun
      next => rw [mine, ← Phase.loading.inj begun, update_self]
    · rw [update_of_ne fun same => mine (Prod.mk.inj same).1]
      exact dying.loading q jp before
  · intro q jp freed after
    have before : c.phase q = .freeing jp freed := by
      refine (freeing_of_update rfl ?_ q jp freed after).1
      intro kp freed
      split <;> simp
    refine (nlink_of_update rfl ?_ q jp freed before).trans (dying.nlink q jp freed before)
    exact fun _ => rfl

theorem began (dying : Dying c) (unlinked : (c.inode ip).nlink = 0) :
    Dying ((c.setInode ip { c.inode ip with busy := true }).setPhase p (.freeing ip false)) := by
  refine ⟨?_, ?_⟩
  · intro q jp after
    exact dying.loading q jp (loading_of_update rfl (by simp) q jp after)
  · intro q jp freed after
    change (update c.inode ip { c.inode ip with busy := true } jp).nlink = 0
    by_cases mine : jp = ip
    · rw [mine, update_self]
      exact unlinked
    · rw [update_of_ne mine]
      cases freeing_of_begin rfl q jp freed after with
      | inl before => exact dying.nlink q jp freed before
      | inr new => exact absurd new.2 mine

theorem moved (dying : Dying c) (exclusive : Exclusive c) {label : Label P}
    (moved : Moved c label c') : Dying c' := by
  cases moved with
  | got | recycled =>
    exact dying.keep (nlink_of_update rfl fun _ => rfl) (fun _ _ _ => rfl)
      (loading_of_update rfl (by simp)) (exists_freeing_of_update rfl (by simp))
  | duplicated | put =>
    exact dying.keep (nlink_of_update rfl fun _ => rfl) (fun _ _ _ => rfl) (fun _ _ => id)
      fun _ _ freed phase => ⟨freed, phase⟩
  | slept | stirred | found =>
    exact dying.keep (fun _ _ _ _ => rfl) (fun _ _ _ => rfl) (loading_of_update rfl (by simp))
      (exists_freeing_of_update rfl (by simp))
  | @took p ip _ holds idle => exact dying.took
  | @loaded p ip phase =>
    have alive := not_freeing exclusive (dying.loading p ip phase)
    exact dying.keep
      (nlink_of_update rfl fun ⟨q, freed, phase⟩ => absurd phase (alive q freed))
      (fun _ _ _ => rfl) (loading_of_update rfl (by simp))
      (exists_freeing_of_update rfl (by simp))
  | relinked owns =>
    have alive := not_freeing exclusive owns.2
    exact dying.keep
      (nlink_of_update rfl fun ⟨q, freed, phase⟩ => absurd phase (alive q freed))
      (fun _ _ _ => rfl) (fun _ _ => id) fun _ _ freed phase => ⟨freed, phase⟩
  | updated =>
    exact dying.keep (fun _ _ _ _ => rfl) (fun _ _ _ => rfl) (fun _ _ => id)
      fun _ _ freed phase => ⟨freed, phase⟩
  | @unlocked p ip owns =>
    refine dying.keep (nlink_of_update rfl fun _ => rfl) ?_ (fun _ _ => loading_of_wake)
      fun _ _ freed phase => ⟨freed, freeing_of_wake phase⟩
    intro q jp phase
    refine update_of_ne ?_ _ _
    intro same
    rw [(Prod.mk.inj same).1] at phase
    exact absurd (owns.1.symm.trans phase) (by simp)
  | began _ _ unlinked => exact dying.began unlinked
  | freed phase =>
    refine dying.keep (nlink_of_update rfl fun _ => rfl) (fun _ _ _ => rfl)
      (loading_of_update rfl (by simp)) ?_
    intro q jp freed after
    cases freeing_of_begin rfl q jp freed after with
    | inl before => exact ⟨freed, before⟩
    | inr new =>
      rw [new.1, new.2]
      exact ⟨false, phase⟩
  | @finished p ip phase =>
    refine dying.keep (nlink_of_update rfl fun _ => rfl) (fun _ _ _ => rfl) ?_ ?_
    · intro q jp after
      exact loading_of_update (show (c.setPhase p .idle).phase = _ from rfl) (by simp) q jp
        (loading_of_wake after)
    · intro q jp freed after
      exact exists_freeing_of_update (show (c.setPhase p .idle).phase = _ from rfl) (by simp) q
        jp freed (freeing_of_wake after)

end Dying

variable {c c' : Cache P} {ip : Ix} {label : Label P}

theorem key_of_moved [DecidableEq P] (moved : Moved c label c') (positive : 0 < (c.inode ip).ref) :
    (c'.inode ip).key = (c.inode ip).key := by
  have update : ∀ {jp inode}, (jp = ip → inode.key = (c.inode ip).key) →
      (update c.inode jp inode ip).key = (c.inode ip).key := by
    intro jp inode same
    by_cases mine : ip = jp
    · rw [← mine, update_self]
      exact same mine.symm
    · rw [update_of_ne mine]
  cases moved with
  | recycled _ free _ =>
    refine update ?_
    rintro rfl
    omega
  | slept | stirred | updated | found => rfl
  | got | duplicated | took | loaded | relinked | unlocked | put | began | freed | finished =>
    refine update ?_
    rintro rfl
    rfl

theorem begun_of_moved [DecidableEq P] (moved : Moved c label c') {p : P}
    (after : c'.phase p = .freeing ip false) :
    c.phase p = .freeing ip false ∨
      c.Has p ip ∧ (c.inode ip).ref = 1 ∧ (c.inode ip).nlink = 0 := by
  have update : ∀ {q phase}, c'.phase = update c.phase q phase →
      (∀ jp, phase ≠ .freeing jp false) → c.phase p = .freeing ip false := by
    intro q phase phases quiet
    rw [phases] at after
    exact (of_update_ne after (quiet ip)).2
  cases moved with
  | got | recycled | slept | stirred | loaded | freed | found => exact .inl (update rfl (by simp))
  | took =>
    refine .inl (update rfl ?_)
    intro jp
    split <;> simp
  | duplicated | relinked | updated | put => exact .inl after
  | unlocked => exact .inl (freeing_of_wake after)
  | @finished q jp _ =>
    exact .inl (freeing_of_update (show (c.setPhase q .idle).phase = _ from rfl) (by simp) p ip
      false (freeing_of_wake after)).1
  | began has last unlinked _ =>
    cases freeing_of_begin rfl p ip false after with
    | inl before => exact .inl before
    | inr new =>
      obtain ⟨rfl, rfl⟩ := new
      exact .inr ⟨has, last, unlinked⟩

section

variable {disk : UInt32 × UInt32 → Dinode}

theorem kept_iinit : Kept (iinit (P := P) disk) :=
  ⟨fun _ => rfl, fun _ _ positive => absurd positive (Nat.lt_irrefl 0),
    fun _ _ _ phase => absurd phase (by simp [iinit])⟩

theorem exclusive_iinit : Exclusive (iinit (P := P) disk) := by
  have free : ∀ p ip, ¬(iinit disk).Holds (P := P) p ip := by simp [Holds, iinit]
  refine ⟨fun p ip holds => absurd holds (free p ip), fun p _ ip holds => absurd holds (free p ip),
    ?_, ?_⟩
  · simp [Holds, Waits, iinit]
  · simp [iinit]

theorem dying_iinit : Dying (iinit (P := P) disk) := ⟨by simp [iinit], by simp [iinit]⟩

variable [DecidableEq P] {labels : List (Label P)} {c : Cache P}

theorem kept_of_run (reached : run step (iinit disk) labels = some c) : Kept c :=
  run_preserves Kept (fun _ _ _ kept stepped => kept.moved (moved_of_step stepped)) kept_iinit
    reached

theorem exclusive_of_run (conforms : Conforms step Unlocks (iinit disk) labels)
    (reached : run step (iinit disk) labels = some c) : Exclusive c ∧ Dying c := by
  have all : Kept c ∧ Exclusive c ∧ Dying c := by
    refine run_invariant (fun c => Kept c ∧ Exclusive c ∧ Dying c) ?_
      ⟨kept_iinit, exclusive_iinit, dying_iinit⟩ conforms reached
    rintro c label c' ⟨kept, exclusive, dying⟩ unlocks stepped
    have moved := moved_of_step stepped
    exact ⟨kept.moved moved, exclusive.moved kept unlocks moved, dying.moved exclusive moved⟩
  exact all.2

theorem inodes_in_every_run (reached : run step (iinit disk) labels = some c) :
    (∀ ip jp, 0 < (c.inode ip).ref → 0 < (c.inode jp).ref →
      (c.inode ip).key = (c.inode jp).key → ip = jp) ∧
    (∀ ip, (c.inode ip).ref = (c.refs.filter fun handed => handed.2 = ip).length) ∧
    (∀ label c' ip, c.step label = some c' → 0 < (c.inode ip).ref →
      (c'.inode ip).key = (c.inode ip).key) ∧
    (∀ label c' p ip, c.step label = some c' → c.phase p ≠ .freeing ip false →
      c'.phase p = .freeing ip false →
      (c.refs.filter fun handed => handed.2 = ip) = [(p, ip)] ∧ (c.inode ip).nlink = 0) ∧
    (Conforms step Unlocks (iinit disk) labels →
      (∀ p q ip, c.locked (p, ip) = true → c.locked (q, ip) = true → p = q) ∧
      ∀ p ip, c.phase p = .freeing ip false → (c.inode ip).nlink = 0) := by
  have kept := kept_of_run reached
  refine ⟨kept.unique, fun ip => (kept.counted ip).symm, ?_, ?_, ?_⟩
  · intro label c' ip stepped positive
    exact key_of_moved (moved_of_step stepped) positive
  · intro label c' p ip stepped before after
    cases begun_of_moved (moved_of_step stepped) after with
    | inl already => exact absurd already before
    | inr begun =>
      obtain ⟨has, last, unlinked⟩ := begun
      refine ⟨?_, unlinked⟩
      obtain ⟨only, alone⟩ := length_eq_one_iff.mp ((kept.counted ip).trans last)
      have member : (p, ip) ∈ c.refs.filter fun handed => handed.2 = ip :=
        mem_filter.mpr ⟨has.2, by simp⟩
      rw [alone, mem_singleton] at member
      rw [alone, member]
  · intro conforms
    obtain ⟨exclusive, dying⟩ := exclusive_of_run conforms reached
    refine ⟨?_, fun p ip => dying.nlink p ip false⟩
    exact fun p q ip first second => exclusive.alone p q ip (.inl first) (.inl second)

def linkedDisk : UInt32 × UInt32 → Dinode := fun _ => ⟨2, 1⟩

def closeRemoved : List (Label (Fin 2)) :=
  [.iget 0 1 5, .ilock 0 0, .load 0, .iget 1 1 5, .ilock 1 0, .setNlink 0 0 0, .iupdate 0 0,
    .iunlock 0 0, .rescan 1, .iunlock 1 0, .iput 0 0, .iput 1 0]

theorem inodes_in_closeRemoved : ∃ c : Cache (Fin 2),
    run step (iinit linkedDisk) closeRemoved = some c ∧ (c.inode 0).ref = 1 ∧
      c.phase 1 = .freeing 0 false ∧ (c.inode 0).nlink = 0 := by
  have runs : (run step (iinit linkedDisk) closeRemoved).map (fun c : Cache (Fin 2) =>
      ((c.inode 0).ref, c.phase 1)) = some (1, .freeing 0 false) := by decide +kernel
  have conforms : Conforms step Unlocks (iinit linkedDisk) closeRemoved := by decide +kernel
  obtain ⟨c, reached, result⟩ := Option.map_eq_some_iff.mp runs
  obtain ⟨ref, phase⟩ := Prod.mk.inj result
  exact ⟨c, reached, ref, phase, ((inodes_in_every_run reached).2.2.2.2 conforms).2 1 0 phase⟩

def putLocked : List (Label (Fin 2)) :=
  [.iget 0 1 5, .ilock 0 0, .load 0, .iput 0 0, .iget 1 1 6, .ilock 1 0]

def getDying : List (Label (Fin 2)) :=
  [.iget 0 1 5, .ilock 0 0, .load 0, .setNlink 0 0 0, .iunlock 0 0, .iput 0 0, .iget 1 1 5]

theorem two_locked_of_putLocked :
    (run step (iinit linkedDisk) putLocked).map (fun c =>
      (c.locked (0, 0), c.locked (1, 0))) = some (true, true) ∧
    (run step (iinit linkedDisk) getDying).map (fun c =>
      (c.phase 0, (c.inode 0).ref)) = some (.freeing 0 false, 2) := by
  decide +kernel

end

end Cache

end StraceXv6.Kernel.Icache
