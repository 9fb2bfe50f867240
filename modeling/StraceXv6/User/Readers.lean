import StraceXv6.Data.Countdown
import StraceXv6.Kernel.Dump
import StraceXv6.User.Printf

namespace StraceXv6.User

open List Data
open Kernel

/-! The two loops of the shell that read the ring back: `strace dump`, which
prints to the console, and `filep`, which writes fixed-size records. -/

/-- The heap from the start of the allocated buffer on, the bytes emitted so
far, and the indices passed to `dump`. -/
structure Reader where
  buf : List UInt8
  output : List UInt8
  calls : List Int32

namespace Reader

/-- `memset(&buf[0], 0, sizeof(buf))`, where `buf` is a pointer. -/
def clear (r : Reader) : Reader :=
  { r with buf := overlay [0, 0, 0, 0] r.buf }

def dump (k : TraceState) (wild : Int32 → List UInt8) (index : Int32)
    (r : Reader) : Reader :=
  { r with
    buf := overlay (sysbufText k wild index ++ [0]) r.buf
    calls := r.calls ++ [index] }

def emit (text : List UInt8 → List UInt8) (r : Reader) : Reader :=
  if r.buf.head? = some 'T'.toUInt8 then
    { r with output := r.output ++ text r.buf }
  else r

end Reader

def straceDumpLine (buf : List UInt8) : List UInt8 :=
  printf (lit "\x1b[1;92m%s\x1b[0m\n") [.str (some (cstr buf))]

def filepRecord (buf : List UInt8) : List UInt8 :=
  buf.take 1000 ++ [10, 0]

section

variable (k : TraceState) (wild : Int32 → List UInt8)

def straceDumpBody (i : Int32) (r : Reader) : Reader :=
  ((r.dump k wild i).emit straceDumpLine).clear

def straceDump (heap : List UInt8) : Reader :=
  let r := Reader.clear ⟨heap, [], []⟩
  let r := forDown (straceDumpBody k wild) (-1) (k.callcount - 1) r
  forDown (straceDumpBody k wild) (k.callcount - 1) 10 r

def filepBody (i : Int32) (r : Reader) : Reader :=
  (r.clear.dump k wild i).emit filepRecord

def filep (heap : List UInt8) : Reader :=
  let r := forDown (filepBody k wild) (-1) (k.callcount - 1) ⟨heap, [], []⟩
  forDown (filepBody k wild) (k.callcount - 1) 10 r

def visited : List Int32 :=
  descent (k.callcount - 1) ((k.callcount - 1).toInt - (-1 : Int32).toInt).toNat ++
    descent 10 ((10 : Int32).toInt - (k.callcount - 1).toInt).toNat

theorem straceDump_eq_foldl (heap : List UInt8) :
    straceDump k wild heap =
      (visited k).foldl (fun r i => straceDumpBody k wild i r)
        (Reader.clear ⟨heap, [], []⟩) := by
  simp only [straceDump, visited, forDown_eq_foldl, foldl_append]

theorem filep_eq_foldl (heap : List UInt8) :
    filep k wild heap =
      (visited k).foldl (fun r i => filepBody k wild i r) ⟨heap, [], []⟩ := by
  simp only [filep, visited, forDown_eq_foldl, foldl_append]

end

/-- The slot at an index holds a message that starts with `T` and fits a record,
or else the memory found there does not start with `T`. -/
def Legible (k : TraceState) (wild : Int32 → List UInt8) (index : Int32) : Prop :=
  match slotAt k index with
  | some text =>
    text.head? = some 'T'.toUInt8 ∧ (0 : UInt8) ∉ text ∧ text.length < 1000
  | none => (wild index).head? ≠ some 'T'.toUInt8

def coloured (text : List UInt8) : List UInt8 :=
  lit "\x1b[1;92m" ++ text ++ lit "\x1b[0m\n"

theorem head?_overlay_nul (text array : List UInt8) :
    (overlay (text ++ [0]) array).head? = some 'T'.toUInt8 ↔
      text.head? = some 'T'.toUInt8 := by
  cases text with
  | nil =>
    have distinct : (0 : UInt8) ≠ 'T'.toUInt8 := by decide
    simp [overlay, distinct]
  | cons first rest => simp [overlay]

theorem head?_cstr (array : List UInt8) :
    (cstr array).head? = some 'T'.toUInt8 → array.head? = some 'T'.toUInt8 := by
  cases array with
  | nil => exact id
  | cons first rest =>
    intro starts
    simp only [cstr, takeWhile_cons] at starts
    split at starts
    next => exact starts
    next => contradiction

variable {index : Int32} {k : TraceState} {text : List UInt8} {wild : Int32 → List UInt8}
  {indices : List Int32}

private theorem emit_of_some (filled : slotAt k index = some text)
    (legible : Legible k wild index) (line : List UInt8 → List UInt8) (r : Reader) :
    ((r.dump k wild index).emit line).output =
      r.output ++ line (overlay (text ++ [0]) r.buf) := by
  simp only [Legible, filled] at legible
  have shown : sysbufText k wild index = text := by rw [sysbufText, filled]; rfl
  simp only [Reader.emit, Reader.dump, shown]
  rw [if_pos ((head?_overlay_nul text r.buf).mpr legible.1)]

private theorem emit_of_none (vacant : slotAt k index = none) (legible : Legible k wild index)
    (line : List UInt8 → List UInt8) (r : Reader) :
    ((r.dump k wild index).emit line).output = r.output := by
  simp only [Legible, vacant] at legible
  have shown : sysbufText k wild index = cstr (wild index) := by
    rw [sysbufText, vacant]
    rfl
  simp only [Reader.emit, Reader.dump, shown]
  rw [if_neg]
  intro starts
  exact legible (head?_cstr _ ((head?_overlay_nul _ _).mp starts))

private theorem straceDumpLine_overlay (noNul : (0 : UInt8) ∉ text) (buf : List UInt8) :
    straceDumpLine (overlay (text ++ [0]) buf) = coloured text := by
  rw [straceDumpLine, cstr_overlay_nul noNul, coloured, append_assoc]
  rfl

theorem output_foldl_straceDumpBody (legible : ∀ i ∈ indices, Legible k wild i) (r : Reader) :
    (indices.foldl (fun r i => straceDumpBody k wild i r) r).output =
      r.output ++ ((indices.filterMap (slotAt k)).map coloured).flatten := by
  induction indices generalizing r with
  | nil => simp
  | cons i rest induction =>
    rw [foldl_cons, induction fun j member => legible j (mem_cons_of_mem _ member)]
    have here := legible i mem_cons_self
    change ((r.dump k wild i).emit straceDumpLine).output ++ _ = _
    cases filled : slotAt k i with
    | none =>
      rw [emit_of_none filled here, filterMap_cons_none filled]
    | some text =>
      have clean := here
      simp only [Legible, filled] at clean
      rw [emit_of_some filled here, straceDumpLine_overlay clean.2.1,
        filterMap_cons_some filled, map_cons, flatten_cons,
        append_assoc]

theorem output_foldl_filepBody (legible : ∀ i ∈ indices, Legible k wild i) {r : Reader}
    (room : 1000 ≤ r.buf.length) :
    ∃ blocks, List.Forall₂ (fun text block => block.length = 1000 ∧ cstr block = text)
        (indices.filterMap (slotAt k)) blocks ∧
      (indices.foldl (fun r i => filepBody k wild i r) r).output =
        r.output ++ (blocks.map (· ++ [10, 0])).flatten := by
  induction indices generalizing r with
  | nil => exact ⟨[], .nil, by simp⟩
  | cons i rest induction =>
    have here := legible i mem_cons_self
    have cleared : 1000 ≤ r.clear.buf.length :=
      room.trans (length_le_overlay _ _)
    have kept : 1000 ≤ (filepBody k wild i r).buf.length := by
      simp only [filepBody, Reader.emit]
      split <;> exact cleared.trans (length_le_overlay _ _)
    obtain ⟨blocks, aligned, output⟩ := induction
      (fun j member => legible j (mem_cons_of_mem _ member)) kept
    rw [foldl_cons, output]
    change ∃ blocks, _ ∧ ((r.clear.dump k wild i).emit filepRecord).output ++ _ = _
    cases filled : slotAt k i with
    | none =>
      rw [emit_of_none filled here, filterMap_cons_none filled]
      exact ⟨blocks, aligned, rfl⟩
    | some text =>
      have clean := here
      simp only [Legible, filled] at clean
      obtain ⟨_, noNul, short⟩ := clean
      rw [emit_of_some filled here, filterMap_cons_some filled]
      refine ⟨(overlay (text ++ [0]) r.clear.buf).take 1000 :: blocks,
        .cons ⟨?_, cstr_take_overlay_nul noNul short _⟩ aligned, ?_⟩
      · rw [length_take]
        exact Nat.min_eq_left (cleared.trans (length_le_overlay _ _))
      · simp only [filepRecord, map_cons, flatten_cons, append_assoc]
        rfl

section

variable {k : TraceState} {events : List (Proc × Sys)} (records : Records k events)

include records

private theorem toInt_callcount_pred :
    (k.callcount - 1).toInt = (cursor N events.length : Int) - 1 := by
  have position := records.position
  have bound := cursor_le N events.length
  have capacity : N = 10 := rfl
  rw [Int32.toInt_sub, Int32.toInt_one, position]
  exact Int.bmod_eq_of_le (by omega) (by omega)

theorem visited_eq :
    visited k =
      (List.range (cursor N events.length)).map
          (fun back : Nat => Int32.ofInt ((cursor N events.length : Int) - 1 - back)) ++
        10 :: (List.range (N - cursor N events.length)).map
          (fun back : Nat => Int32.ofInt (9 - back)) := by
  have bound := cursor_le N events.length
  have capacity : N = 10 := rfl
  have older : ((10 : Int32).toInt - ((cursor N events.length : Int) - 1)).toNat =
      (N - cursor N events.length) + 1 := by
    change (10 - ((cursor N events.length : Int) - 1)).toNat = _
    omega
  have newer : ((cursor N events.length : Int) - 1 - (-1 : Int32).toInt).toNat =
      cursor N events.length := by
    change ((cursor N events.length : Int) - 1 - (-1)).toNat = _
    omega
  rw [visited, descent, toInt_callcount_pred records, newer, older, descent,
    range_succ_eq_map, map_cons, map_map]
  congr 2
  apply map_congr_left
  intro back _
  change Int32.ofInt (10 - ((back + 1 : Nat) : Int)) = _
  congr 1
  omega

theorem filterMap_visited :
    (visited k).filterMap (slotAt k) =
      (events.reverse.take N).map fun event => message event.1 event.2 := by
  have read := records.holds.filterMap_backward
  rw [length_map, ← map_reverse, ← map_take] at read
  rw [← read, visited_eq records, backward, filterMap_append,
    filterMap_append, filterMap_map, filterMap_map,
    filterMap_cons_none rfl, filterMap_map, filterMap_map]
  have bound := cursor_le N events.length
  have capacity : N = 10 := rfl
  congr 1
  · apply filterMap_congr
    intro back member
    have inside := mem_range.mp member
    change slotAt k (Int32.ofInt ((cursor N events.length : Int) - 1 - back)) =
      k.slot (Fin.ofNat N (cursor N events.length - 1 - back))
    rw [show (cursor N events.length : Int) - 1 - back =
      (cursor N events.length - 1 - back : Nat) by omega]
    exact slotAt_ofInt k (by omega)
  · apply filterMap_congr
    intro back member
    have inside := mem_range.mp member
    change slotAt k (Int32.ofInt (9 - back)) = k.slot (Fin.ofNat N (N - 1 - back))
    rw [show (9 : Int) - back = (N - 1 - back : Nat) by omega]
    exact slotAt_ofInt k (by omega)

variable {i : Int32}

theorem bounds_of_mem_visited (member : i ∈ visited k) : 0 ≤ i.toInt ∧ i.toInt ≤ N := by
  have bound := cursor_le N events.length
  have capacity : N = 10 := rfl
  have inside : ∀ index : Int, 0 ≤ index → index ≤ N →
      0 ≤ (Int32.ofInt index).toInt ∧ (Int32.ofInt index).toInt ≤ N := by
    intro index lower upper
    have same : (Int32.ofInt index).toInt = index :=
      Int32.toInt_ofInt_of_le (by omega) (by omega)
    rw [same]
    exact ⟨lower, upper⟩
  rw [visited_eq records, mem_append, mem_cons] at member
  rcases member with newer | last | older
  · obtain ⟨back, small, equal⟩ := mem_map.mp newer
    have below := mem_range.mp small
    rw [← equal]
    exact inside _ (by omega) (by omega)
  · rw [last]
    decide
  · obtain ⟨back, small, equal⟩ := mem_map.mp older
    have below := mem_range.mp small
    rw [← equal]
    exact inside _ (by omega) (by omega)

theorem legible_of_mem_visited {wild : Int32 → List UInt8}
    (silent : ∀ index : Int32, 0 ≤ index.toInt → index.toInt ≤ N →
      slotAt k index = none → (wild index).head? ≠ some 'T'.toUInt8) (member : i ∈ visited k) :
    Legible k wild i := by
  unfold Legible
  cases filled : slotAt k i with
  | none =>
    obtain ⟨lower, upper⟩ := bounds_of_mem_visited records member
    exact silent i lower upper filled
  | some text =>
    have shown : text ∈ (visited k).filterMap (slotAt k) :=
      mem_filterMap.mpr ⟨i, member, filled⟩
    rw [filterMap_visited records] at shown
    obtain ⟨event, _, equal⟩ := mem_map.mp shown
    rw [← equal]
    refine ⟨?_, noNul_cstr _, length_message_lt event.1 event.2⟩
    rw [message_eq]
    rfl

end

theorem records_run (calls : List Call) :
    Records (calls.foldl Call.perform .boot) (acceptedFrom .zero calls) :=
  records_boot.perform calls

/-- After any recorded history both readers emit the messages of the last `N`
events, newest first. -/
theorem readers_emit_last_messages (calls : List Call)
    (wild : Int32 → List UInt8) (heap : List UInt8)
    (silent : ∀ index : Int32, 0 ≤ index.toInt → index.toInt ≤ N →
      slotAt (calls.foldl Call.perform .boot) index = none →
        (wild index).head? ≠ some 'T'.toUInt8)
    (room : 1000 ≤ heap.length) :
    let k := calls.foldl Call.perform .boot
    let recent := ((acceptedFrom .zero calls).reverse.take N).map
      fun event => message event.1 event.2
    (straceDump k wild heap).output = (recent.map coloured).flatten ∧
      ∃ blocks,
        List.Forall₂ (fun text block => block.length = 1000 ∧ cstr block = text)
          recent blocks ∧
        (filep k wild heap).output = (blocks.map (· ++ [10, 0])).flatten := by
  intro k recent
  have records : Records k (acceptedFrom .zero calls) := records_run calls
  have legible : ∀ i ∈ visited k, Legible k wild i := fun i member =>
    legible_of_mem_visited records silent member
  constructor
  · rw [straceDump_eq_foldl, output_foldl_straceDumpBody legible,
      filterMap_visited records]
    rfl
  · obtain ⟨blocks, aligned, output⟩ := output_foldl_filepBody legible
      (r := ⟨heap, [], []⟩) room
    rw [filterMap_visited records] at aligned
    refine ⟨blocks, aligned, ?_⟩
    rw [filep_eq_foldl, output]
    rfl

theorem readers_emit_one_message :
    (straceDump ([Call.record .ls .open].foldl Call.perform .boot) (fun _ => lit "U")
      (List.replicate 1000 0)).output = coloured (message .ls .open) := by
  have emitted := (readers_emit_last_messages [.record .ls .open] (fun _ => lit "U")
    (List.replicate 1000 0) (fun _ _ _ _ => by decide)
    (length_replicate ..).ge).1
  exact emitted.trans (append_nil _)

def FilledOnly (k : TraceState) (indices : List Int32) : Prop :=
  ∀ index ∈ indices, ∃ slot : Fin N, index.toInt = slot.val ∧ (k.slot slot).isSome

private theorem calls_foldl (body : Int32 → Reader → Reader)
    (appends : ∀ i r, (body i r).calls = r.calls ++ [i]) (indices : List Int32)
    (r : Reader) :
    (indices.foldl (fun r i => body i r) r).calls = r.calls ++ indices := by
  induction indices generalizing r with
  | nil => simp
  | cons i rest induction =>
    rw [foldl_cons, induction, appends, append_assoc, singleton_append]

private theorem calls_emit (line : List UInt8 → List UInt8) (r : Reader) :
    (r.emit line).calls = r.calls := by
  unfold Reader.emit
  split <;> rfl

theorem straceDump_calls (k : TraceState) (wild : Int32 → List UInt8)
    (heap : List UInt8) : (straceDump k wild heap).calls = visited k := by
  rw [straceDump_eq_foldl, calls_foldl (straceDumpBody k wild)
    fun i r => calls_emit _ (r.dump k wild i)]
  rfl

theorem filep_calls (k : TraceState) (wild : Int32 → List UInt8)
    (heap : List UInt8) : (filep k wild heap).calls = visited k := by
  rw [filep_eq_foldl, calls_foldl (filepBody k wild)
    fun i r => calls_emit _ (r.clear.dump k wild i)]
  rfl

private theorem not_filledOnly_visited {events : List (Proc × Sys)} (records : Records k events) :
    ¬FilledOnly k (visited k) := by
  intro filled
  have member : (10 : Int32) ∈ visited k := by
    rw [visited_eq records]
    exact mem_append_right _ mem_cons_self
  obtain ⟨slot, position, _⟩ := filled 10 member
  have bound : slot.val < 10 := slot.isLt
  change (10 : Int) = slot.val at position
  omega

/-- Whatever was recorded, each reader passes `dump` the index one past the
ring. -/
theorem readers_never_filledOnly (calls : List Call) (wild : Int32 → List UInt8)
    (heap : List UInt8) :
    ¬FilledOnly (calls.foldl Call.perform .boot)
        (straceDump (calls.foldl Call.perform .boot) wild heap).calls ∧
      ¬FilledOnly (calls.foldl Call.perform .boot)
        (filep (calls.foldl Call.perform .boot) wild heap).calls := by
  rw [straceDump_calls, filep_calls]
  exact ⟨not_filledOnly_visited (records_run calls),
    not_filledOnly_visited (records_run calls)⟩

theorem straceDump_boot_not_filledOnly :
    ¬FilledOnly .boot (straceDump .boot (fun _ => lit "U") (List.replicate 4000 0)).calls := by
  rw [straceDump_calls]
  exact not_filledOnly_visited records_boot

end StraceXv6.User
