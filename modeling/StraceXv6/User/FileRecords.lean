import StraceXv6.User.Readers

namespace StraceXv6.User

open List Data
open Kernel

/-! What the records of `filep` hold beside the messages.  The buffer comes from
`malloc` as it is, `sizeof(buf)` clears the size of a pointer, and each record is
the whole buffer. -/

/-- A message followed by zero bytes only, up to the size of a record. -/
def paddedMessage (text : List UInt8) : List UInt8 :=
  overlay text (List.replicate 1000 0)

section

variable {k : TraceState} {wild : Int32 → List UInt8}

theorem output_filepBody (i : Int32) (r : Reader) :
    (filepBody k wild i r).output =
      if (sysbufText k wild i).head? = some 'T'.toUInt8 then
        r.output ++ filepRecord (overlay (sysbufText k wild i ++ [0]) r.clear.buf)
      else r.output := by
  simp only [filepBody, Reader.emit, Reader.dump, head?_overlay_nul]
  split <;> rfl

theorem exists_output_foldl (k : TraceState) (wild : Int32 → List UInt8)
    (indices : List Int32) (r : Reader) :
    ∃ more, (indices.foldl (fun r i => filepBody k wild i r) r).output =
      r.output ++ more := by
  induction indices generalizing r with
  | nil => exact ⟨[], (append_nil _).symm⟩
  | cons i rest induction =>
    obtain ⟨more, output⟩ := induction (filepBody k wild i r)
    rw [foldl_cons, output, output_filepBody]
    split
    next => exact ⟨_, append_assoc ..⟩
    next => exact ⟨more, rfl⟩

/-- An index whose text starts with `T` puts a record into the file. -/
theorem exists_record {before after : List Int32} {i : Int32}
    (order : visited k = before ++ i :: after)
    (starts : (sysbufText k wild i).head? = some 'T'.toUInt8) (heap : List UInt8) :
    ∃ more, (filep k wild heap).output =
      (before.foldl (fun r i => filepBody k wild i r) ⟨heap, [], []⟩).output ++
        (filepRecord (overlay (sysbufText k wild i ++ [0])
          (before.foldl (fun r i => filepBody k wild i r) ⟨heap, [], []⟩).clear.buf) ++
            more) := by
  rw [filep_eq_foldl, order, foldl_append, foldl_cons]
  obtain ⟨more, output⟩ := exists_output_foldl k wild after
    (filepBody k wild i (before.foldl (fun r i => filepBody k wild i r) ⟨heap, [], []⟩))
  refine ⟨more, ?_⟩
  rw [output, output_filepBody, if_pos starts, append_assoc]

end

section

variable {k : TraceState} {events : List (Proc × Sys)} (records : Records k events)

include records

theorem visited_newest (recorded : events ≠ []) :
    ∃ index rest, ∃ event : Proc × Sys, visited k = index :: rest ∧
      slotAt k index = some (message event.1 event.2) := by
  obtain ⟨count, length⟩ := Nat.exists_eq_succ_of_ne_zero
    (length_pos_iff.mpr recorded).ne'
  have below : count % N < N := Nat.mod_lt count (by decide)
  have inside : count < (events.map fun event => message event.1 event.2).length := by
    rw [length_map, length]
    exact Nat.lt_succ_self count
  have newest := records.holds.recent count inside (by rw [length_map, length]; omega)
  have front : (visited k).head? = some (Int32.ofInt (count % N : Nat)) := by
    rw [visited_eq records, length, cursor_succ, range_succ_eq_map, map_cons,
      cons_append, List.head?_cons]
    congr 2
    omega
  have same : Fin.ofNat N (count % N) = Fin.ofNat N count := by
    apply Fin.ext
    exact Nat.mod_mod count N
  obtain ⟨rest, order⟩ := List.head?_eq_some_iff.mp front
  refine ⟨_, rest, events.get ⟨count, by omega⟩, order, ?_⟩
  rw [slotAt_ofInt k below, same, newest, get_eq_getElem, getElem_map]
  rfl

theorem mem_visited_of_vacant (vacant : events = []) {index : Int32}
    (lower : 0 ≤ index.toInt) (upper : index.toInt ≤ N) : index ∈ visited k := by
  have capacity : N = 10 := rfl
  subst vacant
  rw [visited_eq records]
  by_cases last : index.toInt = 10
  · apply mem_append_right
    rw [Int32.toInt_inj.mp (last.trans (by rfl : (10 : Int) = (10 : Int32).toInt))]
    exact mem_cons_self
  · apply mem_append_right
    apply mem_cons_of_mem
    refine mem_map.mpr ⟨(9 - index.toInt).toNat, ?_, ?_⟩
    · apply mem_range.mpr
      change (9 - index.toInt).toNat < 10
      omega
    · rw [show (9 : Int) - ((9 - index.toInt).toNat : Nat) = index.toInt by omega]
      exact Int32.ofInt_toInt index

end

theorem getElem?_filepRecord {text : List UInt8} (short : text.length ≤ 200)
    {byte : UInt8} {buf : List UInt8} (held : buf[999]? = some byte)
    (more : List UInt8) :
    (filepRecord (overlay (text ++ [0]) buf) ++ more)[999]? = some byte := by
  have kept : (overlay (text ++ [0]) buf)[999]? = some byte := by
    rw [getElem?_overlay_of_le, held]
    rw [length_append, length_singleton]
    omega
  have taken : ((overlay (text ++ [0]) buf).take 1000)[999]? = some byte := by
    rw [List.getElem?_take_of_lt (by decide), kept]
  have inside := (List.getElem?_eq_some_iff.mp taken).1
  rw [filepRecord, append_assoc, List.getElem?_append_left inside, taken]

variable {k : TraceState} {index : Int32} {wild : Int32 → List UInt8}

theorem getElem?_filep_of_recorded {events : List (Proc × Sys)} (records : Records k events)
    (recorded : events ≠ []) (wild : Int32 → List UInt8) (byte : UInt8) :
    (filep k wild (List.replicate 1000 byte)).output[999]? = some byte := by
  obtain ⟨index, rest, event, order, filled⟩ := visited_newest records recorded
  have text : sysbufText k wild index = message event.1 event.2 := by
    rw [sysbufText, filled, Option.getD_some]
  have starts : (sysbufText k wild index).head? = some 'T'.toUInt8 := by
    rw [text, message_eq]
    rfl
  have first : visited k = [] ++ index :: rest := order
  obtain ⟨more, output⟩ := exists_record first starts (List.replicate 1000 byte)
  rw [output, foldl_nil, nil_append, text]
  apply getElem?_filepRecord (length_message_le event.1 event.2)
  rw [Reader.clear, getElem?_overlay_of_le (by decide), List.getElem?_replicate,
    if_pos (by decide)]

theorem filep_ne_nil_of_starts (member : index ∈ visited k)
    (starts : (sysbufText k wild index).head? = some 'T'.toUInt8) (heap : List UInt8) :
    (filep k wild heap).output ≠ [] := by
  obtain ⟨before, after, order⟩ := append_of_mem member
  obtain ⟨more, output⟩ := exists_record order starts heap
  rw [output]
  simp [filepRecord]

theorem filep_eq_nil_of_silent (records : Records k [])
    (silent : ∀ index : Int32, 0 ≤ index.toInt → index.toInt ≤ N →
      (wild index).head? ≠ some 'T'.toUInt8) {heap : List UInt8} (room : 1000 ≤ heap.length) :
    (filep k wild heap).output = [] := by
  have legible : ∀ i ∈ visited k, Legible k wild i := fun i member =>
    legible_of_mem_visited records (fun index lower upper _ => silent index lower upper)
      member
  obtain ⟨blocks, aligned, output⟩ := output_foldl_filepBody legible
    (r := ⟨heap, [], []⟩) room
  rw [filterMap_visited records] at aligned
  cases aligned
  rw [filep_eq_foldl, output]
  rfl

theorem head?_sysbufText_of_vacant (records : Records k [])
    (starts : (wild index).head? = some 'T'.toUInt8) :
    (sysbufText k wild index).head? = some 'T'.toUInt8 := by
  have vacant : slotAt k index = none := by
    unfold slotAt
    split
    next => exact records.holds.vacant _ (Nat.zero_le _)
    next => rfl
  rw [sysbufText, vacant, Option.getD_none]
  obtain ⟨rest, equal⟩ := List.head?_eq_some_iff.mp starts
  rw [equal, cstr, takeWhile_cons_of_pos (by decide), List.head?_cons]

/-- The records are the messages padded with zero bytes, whatever memory `malloc`
returned, exactly when nothing is written at all: nothing was recorded, and the
memory found at the vacant slots does not start with `T`. -/
theorem filep_padded_iff_silent (calls : List Call) (wild : Int32 → List UInt8) :
    let k := calls.foldl Call.perform .boot
    let recent := ((acceptedFrom .zero calls).reverse.take N).map
      fun event => message event.1 event.2
    ((∀ heap heap', 1000 ≤ heap.length → 1000 ≤ heap'.length →
        (filep k wild heap).output = (filep k wild heap').output) ∧
      ∀ heap, 1000 ≤ heap.length →
        (filep k wild heap).output =
          (recent.map fun text => filepRecord (paddedMessage text)).flatten) ↔
    acceptedFrom .zero calls = [] ∧
      ∀ index : Int32, 0 ≤ index.toInt → index.toInt ≤ N →
        (wild index).head? ≠ some 'T'.toUInt8 := by
  intro k recent
  have records : Records k (acceptedFrom .zero calls) := records_run calls
  have room : ∀ byte : UInt8, 1000 ≤ (List.replicate 1000 byte).length :=
    fun byte => (length_replicate ..).ge
  constructor
  · rintro ⟨same, padded⟩
    have nothing : acceptedFrom .zero calls = [] := by
      by_contra recorded
      have equal := congrArg (fun output => output[999]?) (same _ _ (room 0) (room 1))
      simp only [getElem?_filep_of_recorded records recorded] at equal
      exact absurd (Option.some.inj equal) (by decide)
    refine ⟨nothing, ?_⟩
    intro index lower upper starts
    have member := mem_visited_of_vacant records nothing lower upper
    rw [nothing] at records
    refine filep_ne_nil_of_starts member (head?_sysbufText_of_vacant records starts)
      (List.replicate 1000 0) ?_
    rw [padded _ (room 0)]
    simp [recent, nothing]
  · rintro ⟨nothing, silent⟩
    rw [nothing] at records
    refine ⟨?_, ?_⟩
    · intro heap heap' large large'
      rw [filep_eq_nil_of_silent records silent large,
        filep_eq_nil_of_silent records silent large']
    · intro heap large
      rw [filep_eq_nil_of_silent records silent large]
      simp [recent, nothing]

/-- One recorded call, and a heap of zeros or of other data. -/
theorem filep_leaks_heap :
    (filep ([Call.record .ls .open].foldl Call.perform .boot) (fun _ => [])
        (List.replicate 1000 0)).output[999]? = some 0 ∧
      (filep ([Call.record .ls .open].foldl Call.perform .boot) (fun _ => [])
        (List.replicate 1000 1)).output[999]? = some 1 := by
  have recorded : acceptedFrom .zero [Call.record .ls .open] ≠ [] := by decide
  exact ⟨getElem?_filep_of_recorded (records_run [.record .ls .open]) recorded _ 0,
    getElem?_filep_of_recorded (records_run [.record .ls .open]) recorded _ 1⟩

end StraceXv6.User
