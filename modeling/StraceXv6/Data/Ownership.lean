import Mathlib.Logic.Function.Basic

namespace StraceXv6.Data

open Function

/-! Holders that own resources, and marks that tell which resources are taken. -/

section

variable {Holder Resource : Type*}

/-- No two holders own one resource, and a resource is marked if it is reserved or
owned. -/
structure Accounted (reserved : Resource → Prop) (marked : Resource → Bool)
    (owns : Holder → Option Resource) : Prop where
  alone : ∀ {h h' r}, owns h = some r → owns h' = some r → h = h'
  apart : ∀ {h r}, owns h = some r → ¬reserved r
  marked_iff : ∀ r, marked r = true ↔ reserved r ∨ ∃ h, owns h = some r

namespace Accounted

variable {reserved : Resource → Prop} {marked : Resource → Bool}
  {owns : Holder → Option Resource} (accounted : Accounted reserved marked owns)

include accounted

variable {h : Holder} {r : Resource}

theorem marked_of_owns (owned : owns h = some r) : marked r = true :=
  (accounted.marked_iff r).mpr (.inr ⟨h, owned⟩)

theorem not_owns (free : marked r = false) (h : Holder) : owns h ≠ some r := by
  intro owned
  exact absurd (accounted.marked_of_owns owned) (by simp [free])

theorem not_reserved (free : marked r = false) : ¬reserved r := by
  intro kept
  exact absurd ((accounted.marked_iff r).mpr (.inl kept)) (by simp [free])

variable [DecidableEq Holder] [DecidableEq Resource]

theorem claim (vacant : owns h = none) (free : marked r = false) :
    Accounted reserved (update marked r true)
      (update owns h (some r)) where
  alone := by
    intro first second s owned also
    by_cases isFirst : first = h
    · by_cases isSecond : second = h
      · rw [isFirst, isSecond]
      · subst isFirst
        rw [update_self] at owned
        rw [update_of_ne isSecond] at also
        cases owned
        exact absurd also (accounted.not_owns free second)
    · rw [update_of_ne isFirst] at owned
      by_cases isSecond : second = h
      · subst isSecond
        rw [update_self] at also
        cases also
        exact absurd owned (accounted.not_owns free first)
      · rw [update_of_ne isSecond] at also
        exact accounted.alone owned also
  apart := by
    intro holder s owned
    by_cases same : holder = h
    · subst same
      rw [update_self] at owned
      cases owned
      exact accounted.not_reserved free
    · rw [update_of_ne same] at owned
      exact accounted.apart owned
  marked_iff := by
    intro s
    by_cases same : s = r
    · subst same
      rw [update_self]
      exact iff_of_true rfl (.inr ⟨h, update_self ..⟩)
    · rw [update_of_ne same, accounted.marked_iff s]
      apply or_congr_right
      constructor
      · rintro ⟨holder, owned⟩
        refine ⟨holder, ?_⟩
        rwa [update_of_ne]
        intro isHolder
        rw [isHolder, vacant] at owned
        cases owned
      · rintro ⟨holder, owned⟩
        refine ⟨holder, ?_⟩
        rwa [update_of_ne] at owned
        intro isHolder
        rw [isHolder, update_self] at owned
        exact same (Option.some.inj owned).symm

theorem release (owned : owns h = some r) :
    Accounted reserved (update marked r false)
      (update owns h none) where
  alone := by
    intro first second s held also
    rw [update_apply] at held also
    split at held
    next => cases held
    next =>
      split at also
      next => cases also
      next => exact accounted.alone held also
  apart := by
    intro holder s held
    rw [update_apply] at held
    split at held
    next => cases held
    next => exact accounted.apart held
  marked_iff := by
    intro s
    by_cases same : s = r
    · subst same
      rw [update_self]
      refine iff_of_false (by decide) ?_
      rintro (kept | ⟨holder, held⟩)
      · exact accounted.apart owned kept
      · rw [update_apply] at held
        split at held
        next => cases held
        next distinct => exact distinct (accounted.alone held owned)
    · rw [update_of_ne same, accounted.marked_iff s]
      apply or_congr_right
      constructor
      · rintro ⟨holder, held⟩
        refine ⟨holder, ?_⟩
        rwa [update_of_ne]
        intro isHolder
        rw [isHolder, owned] at held
        exact same (Option.some.inj held).symm
      · rintro ⟨holder, held⟩
        refine ⟨holder, ?_⟩
        rw [update_apply] at held
        split at held
        next => cases held
        next => exact held

omit [DecidableEq Holder] in
theorem reserve (free : marked r = false) :
    Accounted (fun s => reserved s ∨ s = r) (update marked r true) owns where
  alone := accounted.alone
  apart := by
    rintro h s owned (kept | rfl)
    · exact accounted.apart owned kept
    · exact accounted.not_owns free h owned
  marked_iff := by
    intro s
    by_cases same : s = r
    · subst same
      rw [update_self]
      exact iff_of_true rfl (.inl (.inr rfl))
    · rw [update_of_ne same, accounted.marked_iff s]
      simp only [same, or_false]

end Accounted

section

variable {reserved : Resource → Prop} {marked : Resource → Bool}
  {owns : Holder → Option Resource} {r : Resource}
  (accounted : Accounted (fun s => reserved s ∨ s = r) marked owns) (open_ : ¬reserved r)

include accounted open_

theorem Accounted.adopt [DecidableEq Holder] {h : Holder} (vacant : owns h = none) :
    Accounted reserved marked (update owns h (some r)) where
  alone := by
    have unowned : ∀ other, owns other ≠ some r :=
      fun other owned => accounted.apart owned (.inr rfl)
    intro first second s owned also
    rw [update_apply] at owned also
    split at owned
    next isFirst =>
      split at also
      next isSecond => rw [isFirst, isSecond]
      next =>
        cases owned
        exact absurd also (unowned second)
    next =>
      split at also
      next =>
        cases also
        exact absurd owned (unowned first)
      next => exact accounted.alone owned also
  apart := by
    intro holder s owned
    rw [update_apply] at owned
    split at owned
    next =>
      cases owned
      exact open_
    next => exact fun kept => accounted.apart owned (.inl kept)
  marked_iff := by
    intro s
    rw [accounted.marked_iff s, or_assoc]
    apply or_congr_right
    constructor
    · rintro (rfl | ⟨holder, owned⟩)
      · exact ⟨h, update_self ..⟩
      · refine ⟨holder, ?_⟩
        rwa [update_of_ne]
        intro isHolder
        rw [isHolder, vacant] at owned
        cases owned
    · rintro ⟨holder, owned⟩
      rw [update_apply] at owned
      split at owned
      next => exact .inl (Option.some.inj owned).symm
      next => exact .inr ⟨holder, owned⟩

end

end

end StraceXv6.Data
