import Mathlib.Data.Fintype.Card
import StraceXv6.Kernel.Bio.Cache

namespace StraceXv6.Kernel.Bio

open List Function Data

/-! The list of the buffers, and which blocks they cache. -/

/-- `b` was released after `c`, or neither was yet and `binit` put `b` first. -/
def MoreRecent (released : List BufIx) (b c : BufIx) : Prop :=
  released.idxOf b < released.idxOf c ∨ b ∉ released ∧ c ∉ released ∧ c < b

theorem MoreRecent.release {released : List BufIx} {a b c : BufIx} (notFirst : b ≠ a)
    (notSecond : c ≠ a) (recent : MoreRecent released b c) :
    MoreRecent (a :: released) b c := by
  unfold MoreRecent at recent ⊢
  rw [idxOf_cons_ne _ (Ne.symm notFirst), idxOf_cons_ne _ (Ne.symm notSecond)]
  cases recent with
  | inl earlier => exact .inl (Nat.succ_lt_succ earlier)
  | inr neither =>
    refine .inr ⟨?_, ?_, neither.2.2⟩
    · exact not_mem_cons_of_ne_of_not_mem notFirst neither.1
    · exact not_mem_cons_of_ne_of_not_mem notSecond neither.2.1

section

variable {A : Type} {test test' : A → Bool} {xs : List A} {x : A}

theorem find?_of_imp (found : xs.find? test = some x) (fewer : ∀ y, test' y = true → test y = true)
    (passes : test' x = true) : xs.find? test' = some x := by
  induction xs with
  | nil => exact found
  | cons y ys induction =>
    rw [List.find?_cons] at found ⊢
    cases here : test' y with
    | true => rwa [fewer y here] at found
    | false =>
      cases there : test y with
      | true =>
        rw [there] at found
        rw [Option.some.inj found] at here
        exact absurd (passes.symm.trans here) (by simp)
      | false =>
        rw [there] at found
        exact induction found

theorem find?_of_unique (member : x ∈ xs) (only : ∀ y, test y = true → y = x)
    (passes : test x = true) : xs.find? test = some x := by
  cases found : xs.find? test with
  | none => exact absurd passes (List.find?_eq_none.mp found x member)
  | some y => rw [only y (List.find?_some found)]

theorem find?_erase [DecidableEq A] (fails : test x = false) :
    (xs.erase x).find? test = xs.find? test := by
  induction xs with
  | nil => rfl
  | cons y ys induction =>
    by_cases same : y = x
    · rw [same, erase_cons_head, List.find?_cons, fails]
    · rw [erase_cons_tail (by simpa using same), List.find?_cons, List.find?_cons, induction]

end

namespace Cache

variable {P D : Type}

def Used (c : Cache P D) (b : BufIx) : Prop := (c.buf b).busy = true ∨ b ∈ c.released

structure Kept (c : Cache P D) (order : List BufIx) : Prop where
  path : c.links.Path none order none
  nodup : order.Nodup
  all : ∀ b, b ∈ order
  recent : order.Pairwise (MoreRecent c.released)
  holders : ∀ b, (c.handles.filter fun handle => handle.2 = b).length =
    if (c.buf b).busy then 1 else 0
  fresh : ∀ b, ¬c.Used b → (c.buf b).block = (-1, 0) ∧ (c.buf b).valid = false ∧
    (c.buf b).dirty = false
  found : ∀ b, c.Used b → order.find? (c.caches (c.buf b).dev (c.buf b).blockno) = some b

namespace Kept

variable {c c' : Cache P D} {order : List BufIx}

theorem length (kept : Kept c order) : order.length ≤ nbuf := by
  have bound := List.Nodup.length_le_card kept.nodup
  rwa [Fintype.card_fin] at bound

theorem lookup_eq (kept : Kept c order) (dev blockno : UInt32) :
    c.lookup dev blockno = some (order.find? (c.caches dev blockno)) :=
  kept.path.scan_eq _ kept.length

theorem victim_eq (kept : Kept c order) : c.victim = some (order.reverse.find? c.clean) := by
  have backward := kept.path.reverse
  have enough : order.reverse.length ≤ nbuf := by
    rw [length_reverse]
    exact kept.length
  exact backward.scan_eq c.clean enough

variable {b a : BufIx} {blockno dev : UInt32} {buf : Buf D} {p : P}

theorem clean_of_victim (kept : Kept c order) (victim : c.victim = some (some b)) :
    (c.buf b).busy = false ∧ (c.buf b).dirty = false := by
  rw [kept.victim_eq] at victim
  have clean := List.find?_some (Option.some.inj victim)
  simpa [Cache.clean] using clean

theorem caches_iff : c.caches dev blockno b = true ↔ (c.buf b).block = (dev, blockno) := by
  simp [caches, Buf.block]

theorem unique (kept : Kept c order) (first : c.Used a) (second : c.Used b)
    (same : (c.buf a).block = (c.buf b).block) : a = b := by
  obtain ⟨dev, blockno⟩ := Prod.mk.inj same
  have here := kept.found a first
  rw [dev, blockno, kept.found b second] at here
  exact (Option.some.inj here).symm

theorem caches_congr (same : (c'.buf a).block = (c.buf a).block) (dev blockno : UInt32) :
    c'.caches dev blockno a = c.caches dev blockno a := by
  unfold Buf.block at same
  rw [caches, caches, (Prod.mk.inj same).1, (Prod.mk.inj same).2]

theorem caches_self (b : BufIx) : c.caches (c.buf b).dev (c.buf b).blockno b = true :=
  caches_iff.mpr rfl

theorem setBuf (kept : Kept c order) (used : c.Used b) (bufs : c'.buf = update c.buf b buf)
    (block : buf.block = (c.buf b).block) (busy : buf.busy = (c.buf b).busy)
    (links : c'.links = c.links) (released : c'.released = c.released)
    (handles : c'.handles = c.handles) : Kept c' order := by
  have blocks : ∀ a, (c'.buf a).block = (c.buf a).block := by
    intro a
    rw [bufs]
    by_cases same : a = b
    · rw [same, update_self, block]
    · rw [update_of_ne same]
  have busys : ∀ a, (c'.buf a).busy = (c.buf a).busy := by
    intro a
    rw [bufs]
    by_cases same : a = b
    · rw [same, update_self, busy]
    · rw [update_of_ne same]
  have useds : ∀ a, c'.Used a ↔ c.Used a := by
    intro a
    unfold Used
    rw [busys, released]
  refine ⟨?_, kept.nodup, kept.all, ?_, ?_, ?_, ?_⟩
  · rw [links]
    exact kept.path
  · rw [released]
    exact kept.recent
  · intro a
    rw [handles, busys]
    exact kept.holders a
  · intro a unused
    have other : a ≠ b := fun same => unused ((useds a).mpr (same ▸ used))
    rw [bufs, update_of_ne other]
    exact kept.fresh a fun before => unused ((useds a).mpr before)
  · intro a after
    have test : c'.caches = c.caches := by
      funext dev blockno d
      exact caches_congr (blocks d) dev blockno
    have same := blocks a
    unfold Buf.block at same
    rw [test, (Prod.mk.inj same).1, (Prod.mk.inj same).2]
    exact kept.found a ((useds a).mp after)

theorem busy_of_handle (kept : Kept c order) (member : (p, b) ∈ c.handles) :
    (c.buf b).busy = true := by
  have one := kept.holders b
  have among : (p, b) ∈ c.handles.filter fun handle => handle.2 = b :=
    mem_filter.mpr ⟨member, by simp⟩
  by_contra idle
  rw [if_neg idle] at one
  rw [length_eq_zero_iff.mp one] at among
  exact absurd among not_mem_nil

theorem busy_of_has (kept : Kept c order) (has : c.Has p b) : (c.buf b).busy = true :=
  kept.busy_of_handle has.2

theorem used_of_has (kept : Kept c order) (has : c.Has p b) : c.Used b :=
  .inl (kept.busy_of_has has)

variable [DecidableEq P]

theorem setPhase (kept : Kept c order) (p : P) (phase : Phase) :
    Kept (c.setPhase p phase) order :=
  { kept with }

theorem take (kept : Kept c order) (idle : (c.buf b).busy = false) (busy : buf.busy = true)
    (found : order.find? ((c.setBuf b buf).caches buf.dev buf.blockno) = some b)
    (clash : ∀ a, a ≠ b → c.Used a → buf.block = (c.buf a).block →
      (c.buf b).block = (c.buf a).block) : Kept (c.take p b buf) order := by
  have here : (c.take p b buf).buf b = buf := update_self ..
  have there : ∀ a, a ≠ b → (c.take p b buf).buf a = c.buf a :=
    fun a other => update_of_ne other ..
  have useds : ∀ a, a ≠ b → ((c.take p b buf).Used a ↔ c.Used a) := by
    intro a other
    unfold Used
    rw [there a other]
    exact Iff.rfl
  refine ⟨kept.path, kept.nodup, kept.all, kept.recent, ?_, ?_, ?_⟩
  · intro a
    change (((p, b) :: c.handles).filter fun handle => handle.2 = a).length = _
    have before := kept.holders a
    by_cases same : a = b
    · subst same
      rw [here, busy, filter_cons_of_pos (by simp), length_cons, before, idle]
      rfl
    · rw [there a same, filter_cons_of_neg (by simpa using Ne.symm same), before]
  · intro a unused
    have other : a ≠ b := by
      intro same
      rw [same] at unused
      refine unused (.inl ?_)
      rw [here]
      exact busy
    rw [there a other]
    exact kept.fresh a fun used => unused ((useds a other).mpr used)
  · intro a used
    by_cases same : a = b
    · rw [same, here]
      exact found
    · rw [there a same]
      refine find?_of_imp (kept.found a ((useds a same).mp used)) ?_ ?_
      · intro y passes
        rw [caches_iff] at passes ⊢
        by_cases mine : y = b
        · rw [mine, here] at passes
          rw [mine]
          exact clash a same ((useds a same).mp used) passes
        · rwa [there y mine] at passes
      · rw [caches_iff, there a same]
        rfl

theorem hit (kept : Kept c order) (lookup : c.lookup dev blockno = some (some b))
    (idle : (c.buf b).busy = false) : Kept (c.take p b { c.buf b with busy := true }) order := by
  rw [kept.lookup_eq] at lookup
  have found := Option.some.inj lookup
  have block := caches_iff.mp (List.find?_some found)
  unfold Buf.block at block
  obtain ⟨rfl, rfl⟩ := Prod.mk.inj block
  refine kept.take idle rfl ?_ (fun _ _ _ same => same)
  have test : (c.setBuf b { c.buf b with busy := true }).caches = c.caches := by
    funext dev blockno a
    refine caches_congr ?_ dev blockno
    change (update c.buf b _ a).block = _
    by_cases same : a = b
    · rw [same, update_self]
      rfl
    · rw [update_of_ne same]
  rw [test]
  exact found

theorem recycled (kept : Kept c order) (lookup : c.lookup dev blockno = some none)
    (idle : (c.buf b).busy = false) :
    Kept (c.take p b
      { c.buf b with dev := dev, blockno := blockno, busy := true, valid := false,
                     dirty := false }) order := by
  rw [kept.lookup_eq] at lookup
  have missing := List.find?_eq_none.mp (Option.some.inj lookup)
  refine kept.take idle rfl ?_ ?_
  · refine find?_of_unique (kept.all b) ?_ ?_
    · intro a passes
      by_contra other
      rw [caches_iff] at passes
      change (update c.buf b _ a).block = _ at passes
      rw [update_of_ne other] at passes
      exact missing a (kept.all a) (caches_iff.mpr passes)
    · rw [caches_iff]
      change (update c.buf b _ b).block = _
      rw [update_self]
      rfl
  · intro a _ _ same
    exact absurd (caches_iff.mpr same.symm) (missing a (kept.all a))

theorem brelse (kept : Kept c order) (has : c.Has p b) :
    Kept (c.brelse p b) (b :: order.erase b) := by
  have busy := kept.busy_of_has has
  have here : (c.brelse p b).buf b = { c.buf b with busy := false } := update_self ..
  have there : ∀ a, a ≠ b → (c.brelse p b).buf a = c.buf a :=
    fun a other => update_of_ne other ..
  have blocks : ∀ a, ((c.brelse p b).buf a).block = (c.buf a).block := by
    intro a
    by_cases same : a = b
    · rw [same, here]
      rfl
    · rw [there a same]
  have useds : ∀ a, a ≠ b → ((c.brelse p b).Used a ↔ c.Used a) := by
    intro a other
    unfold Used
    rw [there a other]
    exact or_congr_right (mem_cons.trans (or_iff_right other))
  have others : ∀ a ∈ order.erase b, a ≠ b :=
    fun a member => (kept.nodup.mem_erase_iff.mp member).1
  refine ⟨kept.path.toFront kept.nodup (kept.all b), ?_, ?_, ?_, ?_, ?_, ?_⟩
  · exact nodup_cons.mpr ⟨fun member => others b member rfl, kept.nodup.erase b⟩
  · intro a
    by_cases same : a = b
    · rw [same]
      exact mem_cons_self
    · exact mem_cons_of_mem b (kept.nodup.mem_erase_iff.mpr ⟨same, kept.all a⟩)
  · refine pairwise_cons.mpr ⟨?_, ?_⟩
    · intro a member
      refine .inl ?_
      change (b :: c.released).idxOf b < (b :: c.released).idxOf a
      rw [idxOf_cons_self, idxOf_cons_ne _ (Ne.symm (others a member))]
      exact Nat.succ_pos _
    · refine (kept.recent.sublist erase_sublist).imp_of_mem ?_
      intro a a' first second recent
      exact recent.release (others a first) (others a' second)
  · intro a
    have split := (perm_cons_erase has.2).filter fun handle => handle.2 = a
    have total := split.length_eq
    rw [kept.holders a] at total
    change ((c.handles.erase (p, b)).filter fun handle => handle.2 = a).length = _
    by_cases same : a = b
    · subst same
      rw [busy, filter_cons_of_pos (by simp), length_cons] at total
      rw [here]
      simpa using total.symm
    · rw [filter_cons_of_neg (by simpa using Ne.symm same)] at total
      rw [there a same]
      exact total.symm
  · intro a unused
    have other : a ≠ b := by
      intro same
      rw [same] at unused
      exact unused (.inr mem_cons_self)
    rw [there a other]
    exact kept.fresh a fun used => unused ((useds a other).mpr used)
  · intro a used
    have test : (c.brelse p b).caches = c.caches := by
      funext dev blockno d
      exact caches_congr (blocks d) dev blockno
    have same := blocks a
    unfold Buf.block at same
    rw [test, (Prod.mk.inj same).1, (Prod.mk.inj same).2, List.find?_cons]
    by_cases mine : a = b
    · rw [mine, caches_self]
    · have before := (useds a mine).mp used
      have fails : c.caches (c.buf a).dev (c.buf a).blockno b = false := by
        rw [← Bool.not_eq_true, caches_iff]
        intro equal
        exact mine (kept.unique before (.inl busy) equal.symm)
      rw [fails, find?_erase fails]
      exact kept.found a before

theorem moved (kept : Kept c order) {label : Label P D} (moved : Moved c label c') :
    ∃ order', Kept c' order' := by
  cases moved with
  | hit lookup idle => exact ⟨order, kept.hit lookup idle⟩
  | slept | stirred => exact ⟨order, kept.setPhase _ _⟩
  | recycled lookup victim =>
    exact ⟨order, kept.recycled lookup (kept.clean_of_victim victim).1⟩
  | stored has | loaded has | modified has | marked has =>
    exact ⟨order, kept.setBuf (kept.used_of_has has) rfl rfl rfl rfl rfl rfl⟩
  | released has => exact ⟨_, kept.brelse has⟩

end Kept

theorem kept_binit (zero : D) (disk : UInt32 × UInt32 → D) :
    Kept (binit zero disk : Cache P D) (List.finRange nbuf).reverse := by
  have nodup : (List.finRange nbuf).reverse.Nodup :=
    nodup_reverse.mpr (nodup_finRange nbuf)
  have unused : ∀ b, ¬(binit zero disk : Cache P D).Used b := by
    intro b used
    cases used with
    | inl busy => exact absurd busy (by simp [binit])
    | inr member => exact absurd member not_mem_nil
  refine ⟨?_, nodup, ?_, ?_, fun _ => rfl, fun _ _ => ⟨rfl, rfl, rfl⟩, ?_⟩
  · have path : Links.Path ((List.finRange nbuf).foldl Links.insertFront .empty) none
        ((List.finRange nbuf).reverse ++ []) none :=
      Links.path_empty.foldl_insertFront (by rwa [append_nil])
    rwa [append_nil] at path
  · exact fun b => mem_reverse.mpr (mem_finRange b)
  · refine pairwise_reverse.mpr ((pairwise_lt_finRange nbuf).imp ?_)
    exact fun less => .inr ⟨not_mem_nil, not_mem_nil, less⟩
  · exact fun b used => absurd used (unused b)

theorem kept_of_run [DecidableEq P] {zero : D} {disk : UInt32 × UInt32 → D} {c : Cache P D}
    {labels : List (Label P D)} (reached : run step (binit zero disk) labels = some c) :
    ∃ order, Kept c order := by
  refine run_preserves (fun c => ∃ order, Kept c order) ?_ ⟨_, kept_binit zero disk⟩ reached
  intro c label c' before stepped
  obtain ⟨order, kept⟩ := before
  exact kept.moved (moved_of_step stepped)

section

variable [DecidableEq P] {zero : D} {disk : UInt32 × UInt32 → D} {c c' : Cache P D}
    {labels : List (Label P D)}

theorem Kept.block_of_moved {order : List BufIx} (kept : Kept c order) {label : Label P D}
    (moved : Moved c label c') {b : BufIx}
    (inUse : (c.buf b).busy = true ∨ (c.buf b).dirty = true) :
    (c'.buf b).block = (c.buf b).block := by
  have same : ∀ (a : BufIx) (buf : Buf D), buf.block = (c.buf a).block →
      (update c.buf a buf b).block = (c.buf b).block := by
    intro a buf block
    by_cases mine : b = a
    · rw [mine, update_self, block]
    · rw [update_of_ne mine]
  cases moved with
  | hit | stored | loaded | modified | marked | released => exact same _ _ rfl
  | slept | stirred => rfl
  | @recycled p a dev blockno _ _ victim =>
    obtain ⟨idle, clean⟩ := kept.clean_of_victim victim
    have other : b ≠ a := by
      rintro rfl
      cases inUse with
      | inl busy => exact absurd (busy.symm.trans idle) (by simp)
      | inr dirty => exact absurd (dirty.symm.trans clean) (by simp)
    exact congrArg Buf.block (update_of_ne other ..)

/-- In every run, a block of a device is in one buffer, the links are those of one list of
all buffers, the last released first, busy buffers have one holder, and a buffer that is busy
or dirty keeps its block. -/
theorem buffers_in_every_run (reached : run step (binit zero disk) labels = some c) :
    (∀ a b, (c.buf a).dev ≠ -1 → (c.buf a).block = (c.buf b).block → a = b) ∧
      (∃ order : List BufIx, c.links.Path none order none ∧ order.Nodup ∧ (∀ b, b ∈ order) ∧
        order.Pairwise (MoreRecent c.released)) ∧
      (∀ b, (c.buf b).busy = true →
        ∃ p, (c.handles.filter fun handle => handle.2 = b) = [(p, b)]) ∧
      ∀ label c', c.step label = some c' → ∀ b,
        (c.buf b).busy = true ∨ (c.buf b).dirty = true →
          (c'.buf b).block = (c.buf b).block := by
  obtain ⟨order, kept⟩ := kept_of_run reached
  refine ⟨?_, ⟨order, kept.path, kept.nodup, kept.all, kept.recent⟩, ?_, ?_⟩
  · intro a b device same
    have used : ∀ b, (c.buf b).dev ≠ -1 → c.Used b := by
      intro b device
      by_contra unused
      exact device (Prod.mk.inj (kept.fresh b unused).1).1
    have device' : (c.buf b).dev ≠ -1 := (Prod.mk.inj same).1 ▸ device
    exact kept.unique (used a device) (used b device') same
  · intro b busy
    have one := kept.holders b
    rw [if_pos busy] at one
    obtain ⟨handle, only⟩ := length_eq_one_iff.mp one
    have member : handle ∈ c.handles.filter fun handle => handle.2 = b :=
      only ▸ mem_singleton_self handle
    have mine : handle.2 = b := by simpa using (mem_filter.mp member).2
    exact ⟨handle.1, only.trans (by rw [← mine])⟩
  · intro label c' stepped b inUse
    exact kept.block_of_moved (moved_of_step stepped) inUse

end

def waitForBuffer : List (Label Nat Nat) :=
  [.bget 0 1 5, .iderw 0 0, .bget 1 1 5, .bget 0 1 6, .brelse 0 0, .rescan 1, .brelse 0 1]

theorem buffers_in_waitForBuffer :
    ∃ c : Cache Nat Nat, run step (binit 0 fun _ => 0) waitForBuffer = some c ∧
      c.handles = [(1, 0)] ∧ c.links.next none = some 1 ∧
      ∃ p, (c.handles.filter fun handle => handle.2 = 0) = [(p, 0)] := by
  have runs : (run step (binit 0 fun _ => 0 : Cache Nat Nat) waitForBuffer).map
      (fun c => (c.handles, c.links.next none, (c.buf 0).busy)) =
        some ([(1, 0)], some 1, true) := by decide +kernel
  obtain ⟨c, reached, result⟩ := Option.map_eq_some_iff.mp runs
  simp only [Prod.mk.injEq] at result
  obtain ⟨handles, first, busy⟩ := result
  exact ⟨c, reached, handles, first, (buffers_in_every_run reached).2.2.1 0 busy⟩

end Cache

end StraceXv6.Kernel.Bio
