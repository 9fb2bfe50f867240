import Mathlib.Data.List.Basic

namespace StraceXv6.Data

section

variable {S : Type*} (body : Int32 → S → S) (stop : Int32)

def countdown : Nat → Int32 → S → S
  | 0, _, s => s
  | fuel + 1, i, s =>
    if stop < i then countdown fuel (i - 1) (body i s) else s

/-- `for (int i = start; i > stop; i--) body(i);` -/
def forDown (start : Int32) (s : S) : S :=
  countdown body stop (start.toInt - stop.toInt).toNat start s

def descent (start : Int32) (count : Nat) : List Int32 :=
  (List.range count).map fun back : Nat => Int32.ofInt (start.toInt - back)

private theorem toInt_pred {i : Int32} (above : stop < i) :
    (i - 1).toInt = i.toInt - 1 := by
  have lower := stop.le_toInt
  have upper := i.toInt_lt
  have greater := Int32.lt_iff_toInt_lt.mp above
  rw [Int32.toInt_sub, Int32.toInt_one]
  exact Int.bmod_eq_of_le (by omega) (by omega)

variable {start : Int32}

private theorem descent_succ (count : Nat) (above : stop < start) :
    descent start (count + 1) = start :: descent (start - 1) count := by
  rw [descent, List.range_succ_eq_map, List.map_cons, List.map_map]
  congr 1
  · simp
  · apply List.map_congr_left
    intro back _
    change Int32.ofInt (start.toInt - ((back + 1 : Nat) : Int)) =
      Int32.ofInt ((start - 1).toInt - back)
    rw [toInt_pred stop above]
    congr 1
    omega

theorem countdown_eq_foldl {fuel : Nat} (enough : (start.toInt - stop.toInt).toNat ≤ fuel) (s : S) :
    countdown body stop fuel start s =
      (descent start (start.toInt - stop.toInt).toNat).foldl
        (fun s i => body i s) s := by
  induction fuel generalizing start s with
  | zero =>
    rw [Nat.le_zero.mp enough]
    rfl
  | succ fuel induction =>
    rw [countdown]
    split
    next above =>
      have greater := Int32.lt_iff_toInt_lt.mp above
      have pred := toInt_pred stop above
      have count : (start.toInt - stop.toInt).toNat =
          ((start - 1).toInt - stop.toInt).toNat + 1 := by omega
      rw [induction (by omega), count, descent_succ stop _ above, List.foldl_cons]
    next below =>
      have notGreater := mt Int32.lt_iff_toInt_lt.mpr below
      rw [show (start.toInt - stop.toInt).toNat = 0 by omega]
      rfl

theorem forDown_eq_foldl (start : Int32) (s : S) :
    forDown body stop start s =
      (descent start (start.toInt - stop.toInt).toNat).foldl
        (fun s i => body i s) s :=
  countdown_eq_foldl body stop (Nat.le_refl _) s

end

end StraceXv6.Data
