import StraceXv6.Kernel.Fs.Create

namespace StraceXv6.Kernel.Fs

open Function Data Data.Command

section

variable {sb : Superblock} {fs fs' : Fs} {ip dp : Fin ninode}
  {held held' : Multiset (Fin ninode)} {locked : Finset (Fin ninode)}

def clearedParent (n : Node) (k : Nat) (type : Int16) : Node :=
  { n.put k .clear with nlink := if type = tDir then n.nlink - 1 else n.nlink }

/-- The inodes after an entry was removed: first the directory is given back, then the
inode loses its link and is given back. -/
structure Removed (nodes : Nat → Node) (d k i : Nat) (nodes' : Nat → Node) : Prop where
  distinct : i ≠ d
  written : ∃ middle,
    Dropped d (Function.update nodes d (clearedParent (nodes d) k (nodes i).type)) middle ∧
    Dropped i (Function.update middle i { nodes i with nlink := (nodes i).nlink - 1 }) nodes'

theorem dropDots_ensures {i d : Nat} (settled : Settled sb fs held locked)
    (ipLocked : ip ∈ locked) (dpLocked : dp ∈ locked) (inum : (fs.icache ip).inum = i)
    (inum' : (fs.icache dp).inum = d) :
    Ensures (dropDots sb dp ip) fs
      (fun _ fs' => Settled sb fs' held locked ∧ Keeps held fs fs' ∧
        sb.node fs'.disk = update (sb.node fs.disk) d
          { sb.node fs.disk d with
            nlink := if (sb.node fs.disk i).type = tDir then (sb.node fs.disk d).nlink - 1
              else (sb.node fs.disk d).nlink })
      (fun _ => False) := by
  obtain ⟨ipHeld, valid⟩ := settled.cached.opened ip ipLocked
  unfold dropDots
  simp only [getInode, ensures_bind, ensures_get, ensures_pure, settled.type_eq ipHeld valid,
    nodeAt, inum]
  split
  next directory =>
    refine (relink_ensures settled dpLocked (· - 1)).weaken ?_
    rintro _ fs' ⟨settled', keeps, nodes⟩
    rw [nodeAt, inum'] at nodes
    exact ⟨settled', keeps, nodes⟩
  next plain =>
    exact ⟨settled, Keeps.refl held fs, (update_eq_self d _).symm⟩

theorem removeEntry_ensures {i d k : Nat}
    (settled : Settled sb fs (ip ::ₘ dp ::ₘ held) (insert ip {dp}))
    (inum : (fs.icache ip).inum = i) (inum' : (fs.icache dp).inum = d) (distinct : i ≠ d)
    (directory : (sb.node fs.disk d).type = tDir)
    (inside : k < (sb.node fs.disk d).dirents.length) :
    Ensures (removeEntry sb dp ip (Dirent.bytes * k)) fs
      (fun _ fs' => Settled sb fs' held ∅ ∧ Keeps held fs fs' ∧
        (sb.Ranged (sb.node fs.disk) → sb.Ranged (sb.node fs'.disk)) ∧
        Removed (sb.node fs.disk) d k i (sb.node fs'.disk) ∧
        (Anchored sb fs (ip ::ₘ dp ::ₘ held) → Anchored sb fs' held))
      Benign := by
  have apart : ip ≠ dp := by
    rintro rfl
    exact distinct (inum.symm.trans inum')
  have ipLocked := Finset.mem_insert_self ip {dp}
  have dpLocked : dp ∈ insert ip {dp} := Finset.mem_insert_of_mem (Finset.mem_singleton_self dp)
  have ipHeld := Multiset.mem_cons_self ip (dp ::ₘ held)
  have dpHeld : dp ∈ ip ::ₘ dp ::ₘ held :=
    Multiset.mem_cons_of_mem (Multiset.mem_cons_self dp held)
  have described : nodeAt sb fs dp = sb.node fs.disk d := by rw [nodeAt, inum']
  unfold removeEntry
  refine (writeDirent_ensures settled dpLocked described directory
    ((Nat.le_add_right _ _).trans (Node.mul_lt_size inside))).bind ?_ ?_
  · rintro _ first ⟨settled₁, nodes₁, keeps₁⟩
    rw [inum'] at nodes₁
    have inum₁ := (keeps₁ ip ipHeld).1.trans inum
    have dnum₁ := (keeps₁ dp dpHeld).1.trans inum'
    refine (dropDots_ensures settled₁ ipLocked dpLocked inum₁ dnum₁).bind ?_
      fun _ => False.elim
    rintro _ second ⟨settled₂, keeps₂, nodes₂⟩
    have kept₂ : Keeps (ip ::ₘ dp ::ₘ held) fs second := keeps₁.trans keeps₂ fun _ => id
    have whole₂ : sb.node second.disk = update (sb.node fs.disk) d
        (clearedParent (sb.node fs.disk d) k (sb.node fs.disk i).type) := by
      rw [nodes₂, nodes₁, update_self, update_of_ne distinct,
        update_idem, clearedParent]
      rfl
    have inum₂ := (keeps₂ ip ipHeld).1.trans inum₁
    have dnum₂ := (keeps₂ dp dpHeld).1.trans dnum₁
    have swap := Multiset.cons_swap ip dp held
    rw [swap] at settled₂
    have anchors₂ : Anchored sb fs (ip ::ₘ dp ::ₘ held) →
        Anchored sb second (dp ::ₘ ip ::ₘ held) := by
      intro anchored
      refine anchored.change kept₂ settled₂ (fun jp member => swap ▸ member) ?_
      intro j others
      have notParent := others dp dpLocked
      rw [dnum₂] at notParent
      rw [whole₂, update_of_ne (Ne.symm notParent)]
    have ranged₂ : sb.Ranged (sb.node fs.disk) → sb.Ranged (sb.node second.disk) := by
      intro ranged
      rw [whole₂]
      refine ranged.update fun _ de listed => ?_
      rcases Node.mem_dirents_put (.inl inside) (List.length_replicate ..) listed with old | rfl
      · exact ranged d directory de old
      · exact Nat.zero_lt_of_lt (settled.cached.entries ip ipHeld).inside
    have unlocks : (insert ip {dp} : Finset (Fin ninode)).erase dp = {ip} := by
      rw [Finset.erase_insert_of_ne apart, Finset.erase_singleton, insert_empty_eq]
    refine (iunlockput_released settled₂ dpLocked).bind ?_ fun _ => False.elim
    rintro _ third ⟨settled₃, released₃⟩
    rw [unlocks] at settled₃
    have ipHeld₃ := Multiset.mem_cons_self ip held
    have among : ∀ jp ∈ held, jp ∈ ip ::ₘ held := fun _ => Multiset.mem_cons_of_mem
    have inum₃ := (released₃.keeps ip ipHeld₃).1.trans inum₂
    have dropped₃ := released₃.dropped
    rw [dnum₂, whole₂] at dropped₃
    have child₃ : nodeAt sb third ip = sb.node fs.disk i := by
      rw [nodeAt, inum₃, dropped₃.of_ne distinct, update_of_ne distinct]
    refine (relink_ensures settled₃ (Finset.mem_singleton_self ip) (· - 1)).bind ?_
      fun _ => False.elim
    rintro _ fourth ⟨settled₄, keeps₄, nodes₄⟩
    have ranged₄ : sb.Ranged (sb.node third.disk) → sb.Ranged (sb.node fourth.disk) := by
      intro ranged
      rw [nodes₄]
      exact ranged.update (ranged _)
    rw [inum₃, child₃] at nodes₄
    have inum₄ := (keeps₄ ip ipHeld₃).1.trans inum₃
    have anchors₄ : Anchored sb third (ip ::ₘ held) → Anchored sb fourth (ip ::ₘ held) := by
      intro anchored
      refine anchored.change keeps₄ settled₄ (fun _ => id) ?_
      intro j others
      have notChild := others ip (Finset.mem_singleton_self ip)
      rw [inum₄] at notChild
      rw [nodes₄, update_of_ne (Ne.symm notChild)]
    refine (iunlockput_released settled₄ (Finset.mem_singleton_self ip)).mono ?_
      fun _ => False.elim
    rintro _ final ⟨settled₅, released₅⟩
    rw [Finset.erase_singleton] at settled₅
    have dropped₅ := released₅.dropped
    rw [inum₄, nodes₄] at dropped₅
    refine ⟨settled₅, ?_, ?_, ⟨distinct, _, dropped₃, dropped₅⟩, ?_⟩
    · have late : Keeps held third final := (keeps₄.mono among).trans released₅.keeps fun _ => id
      have early : Keeps held fs third :=
        (kept₂.mono fun jp member => Multiset.mem_cons_of_mem
          (Multiset.mem_cons_of_mem member)).trans released₃.keeps among
      exact early.trans late fun _ => id
    · exact fun ranged => released₅.ranged (ranged₄ (released₃.ranged (ranged₂ ranged)))
    · exact fun anchored => released₅.anchors (anchors₄ (released₃.anchors (anchors₂ anchored)))
  · rintro failure (rfl | rfl)
    · exact ⟨by decide, by decide, by decide⟩
    · exact ⟨by decide, by decide, by decide⟩

end

section

variable {sb : Superblock} {fs fs' : Fs} {cwd : Fin ninode} {held : Multiset (Fin ninode)}
  {path : List UInt8} (rooted : rootino < sb.ninodes) (settled : Settled sb fs held ∅)
  (member : cwd ∈ held) (ranged : sb.Ranged (sb.node fs.disk))

include rooted settled member ranged

structure Unlinked (nodes : Nat → Node) (expected : Option (Nat × List UInt8)) (d k i : Nat)
    (name : List UInt8) (nodes' : Nat → Node) : Prop where
  resolved : expected = some (d, name)
  directory : (nodes d).type = tDir
  notDot : cname name ≠ cname dot
  notDotdot : cname name ≠ cname dotdot
  found : (nodes d).find name = some k
  named : ((nodes d).dirent k).inum.toNat = i
  linked : ¬(nodes i).nlink < 1
  empty : (nodes i).type = tDir →
    ∀ j, 2 ≤ j → j < (nodes i).dirents.length → ((nodes i).dirent j).inum = 0
  removed : Removed nodes d k i nodes'

def Apart (nodes : Nat → Node) : Prop :=
  ∀ d name k, (nodes d).type = tDir → cname name ≠ cname dot → cname name ≠ cname dotdot →
    (nodes d).find name = some k → ((nodes d).dirent k).inum.toNat ≠ d

omit rooted settled member ranged in
theorem occupied_ensures {ip : Fin ninode} {locked : Finset (Fin ninode)}
    (settled : Settled sb fs held locked) (ipLocked : ip ∈ locked) :
    Ensures (occupied sb ip) fs
      (fun full fs' => fs' = fs ∧ (full = false → (nodeAt sb fs ip).type = tDir →
        ∀ j, 2 ≤ j → j < (nodeAt sb fs ip).dirents.length →
          ((nodeAt sb fs ip).dirent j).inum = 0))
      Benign := by
  obtain ⟨ipHeld, valid⟩ := settled.cached.opened ip ipLocked
  unfold occupied
  simp only [getInode, ensures_bind, ensures_get, ensures_pure, settled.type_eq ipHeld valid]
  split
  next directory =>
    refine (isdirempty_ensures (settled.clean ipLocked) rfl directory).bind ?_ ?_
    · rintro empty fs' ⟨rfl, free⟩
      refine ⟨rfl, fun vacant _ => free.mp ?_⟩
      simpa using vacant
    · rintro failure rfl
      exact ⟨by decide, by decide, by decide⟩
  next plain => exact ⟨rfl, fun _ directory => absurd directory plain⟩

def UnlinkResult (sb : Superblock) (held : Multiset (Fin ninode)) (fs : Fs)
    (expected : Option (Nat × List UInt8)) (removed : Bool) (fs' : Fs) : Prop :=
  Settled sb fs' held ∅ ∧ Keeps held fs fs' ∧ sb.Ranged (sb.node fs'.disk) ∧
    (Anchored sb fs held → Anchored sb fs' held ∧
      if removed then ∃ d k i name,
        Unlinked (sb.node fs.disk) expected d k i name (sb.node fs'.disk)
      else sb.node fs'.disk = sb.node fs.disk)

omit rooted settled member in
theorem unlinkResult_false {expected : Option (Nat × List UInt8)}
    (settled' : Settled sb fs' held ∅) (passed : Passed sb held fs fs') :
    UnlinkResult sb held fs expected false fs' :=
  ⟨settled', passed.keeps, passed.ranged ranged, fun anchored =>
    ⟨passed.anchored anchored, passed.same anchored⟩⟩

theorem unlink_ensures :
    Ensures (unlink sb cwd path) fs
      (fun removed fs' => UnlinkResult sb held fs
        (resolve (sb.node fs.disk) true (fs.icache cwd).inum path) removed fs')
      (Halts (Sound sb fs held) (Anchored sb fs held ∧ Apart (sb.node fs.disk))) := by
  unfold unlink
  refine (namex_ensures rooted settled member ranged true).bind ?_
    fun _ halts => halts.mono id fun _ => trivial
  rintro (_ | ⟨dp, name⟩) first resolved
  · exact unlinkResult_false ranged (resolved.missing rfl) resolved.passed
  · refine resolved.enter.bind ?_ fun _ benign => benign.halts _ _
    intro _ second entered
    have passed := entered.passed
    have among : ∀ jp ∈ held, jp ∈ dp ::ₘ held := fun _ => Multiset.mem_cons_of_mem
    simp only [namecmp_eq_zero]
    split
    next =>
      refine entered.leave.bind ?_ fun _ => False.elim
      rintro _ final ⟨settled', passed'⟩
      exact unlinkResult_false ranged settled' passed'
    next plain =>
      rw [not_or] at plain
      refine (entered.lookup ranged name).bind ?_ fun _ benign => benign.halts _ _
      rintro (_ | ⟨ip, off⟩) third looked
      · obtain ⟨_, rfl⟩ := looked
        refine entered.leave.bind ?_ fun _ => False.elim
        rintro _ final ⟨settled', passed'⟩
        exact unlinkResult_false ranged settled' passed'
      · obtain ⟨k, present, rfl, inum₃, settled₃, disk₃, keeps₃⟩ := looked
        have ipHeld := Multiset.mem_cons_self ip (dp ::ₘ held)
        have dpHeld := Multiset.mem_cons_self dp held
        have dpHeld' : dp ∈ ip ::ₘ dp ::ₘ held := Multiset.mem_cons_of_mem dpHeld
        have amongIp : ∀ jp ∈ dp ::ₘ held, jp ∈ ip ::ₘ dp ::ₘ held :=
          fun _ => Multiset.mem_cons_of_mem
        have passed₃ : Passed sb held fs third :=
          passed.trans (.of_disk (keeps₃.mono among) disk₃)
        refine (ilock_passed settled₃ ipHeld).bind ?_ ?_
        · rintro _ fourth ⟨unlocked, settled₄, disk₄, passed₄⟩
          have apart : ip ≠ dp := fun same => unlocked (Finset.mem_singleton.mpr same)
          have ipLocked := Finset.mem_insert_self ip {dp}
          have same₄ : sb.node fourth.disk = sb.node second.disk := by rw [disk₄, disk₃]
          have inum₄ := (passed₄.keeps ip ipHeld).1.trans inum₃
          have dnum₄ := (passed₄.keeps dp dpHeld').1.trans (keeps₃ dp dpHeld).1
          have distinct : ((nodeAt sb second dp).dirent k).inum.toNat ≠
              (second.icache dp).inum := by
            rw [← inum₄, ← dnum₄]
            exact fun equal => apart (settled₄.cached.distinct ip ipHeld dp dpHeld' equal)
          have chain₄ : Passed sb held fs fourth :=
            passed₃.trans (passed₄.mono fun jp inHeld => amongIp jp (among jp inHeld))
          obtain ⟨_, valid⟩ := settled₄.cached.opened ip ipLocked
          simp only [getInode, ensures_bind, ensures_get, ensures_pure,
            settled₄.nlink_eq ipHeld valid]
          split
          next => exact (⟨by decide, by decide, by decide⟩ : Benign _).halts _ _
          next linked =>
            refine (occupied_ensures settled₄ ipLocked).bind ?_
              fun _ benign => benign.halts _ _
            rintro full fourth ⟨rfl, empty⟩
            cases full with
            | true =>
              have unlocks : (insert ip {dp} : Finset (Fin ninode)).erase ip = {dp} :=
                Finset.erase_insert unlocked
              refine (iunlockput_released settled₄ ipLocked).bind ?_ fun _ => False.elim
              rintro _ fifth ⟨settled₅, released₅⟩
              rw [unlocks] at settled₅
              refine (iunlockput_released settled₅ (Finset.mem_singleton_self dp)).bind ?_
                fun _ => False.elim
              rintro _ final ⟨settled₆, released₆⟩
              rw [Finset.erase_singleton] at settled₆
              exact unlinkResult_false ranged settled₆
                ((chain₄.trans (released₅.mono among)).trans released₆.toPassed)
            | false =>
              have directory := entered.directory
              obtain ⟨inside, _⟩ := Node.find_eq_some.mp present
              have inside' := inside
              rw [nodeAt, ← same₄] at directory inside'
              refine (removeEntry_ensures settled₄ inum₄ dnum₄ distinct directory
                inside').bind ?_ fun _ benign => benign.halts _ _
              rintro _ final ⟨settled₅, keeps₅, ranged₅, removed, anchors₅⟩
              refine ⟨settled₅, chain₄.keeps.trans keeps₅ fun _ => id,
                ranged₅ (chain₄.ranged ranged), fun anchored => ?_⟩
              have same := chain₄.same anchored
              have same₂ := passed.same anchored
              refine ⟨anchors₅ ((chain₄.anchored anchored).mono fun jp inHeld =>
                amongIp jp (among jp inHeld)), (second.icache dp).inum, k,
                  ((nodeAt sb second dp).dirent k).inum.toNat, name, ?_⟩
              rw [same] at directory removed
              rw [nodeAt, same, inum₄] at linked empty
              rw [nodeAt, same₂] at present linked empty removed ⊢
              exact ⟨entered.agrees anchored, directory, plain.1, plain.2, present, rfl,
                linked, empty rfl, removed⟩
        · intro failure halts
          have directory := entered.directory
          refine halts.mono (fun sound => ?_) ?_
          · obtain ⟨inside, used, _⟩ := Node.find_eq_some.mp present
            have same := passed.same sound.anchored
            rw [nodeAt, disk₃, same, inum₃]
            rw [nodeAt, same] at directory inside used ⊢
            exact sound.populated _ directory _ (Node.dirent_mem inside) used
          · rintro ⟨anchored, apart⟩ locked
            rw [Finset.mem_singleton.mp locked, (keeps₃ dp dpHeld).1] at inum₃
            have same := passed.same anchored
            rw [nodeAt, same] at directory present inum₃
            exact apart _ _ _ directory plain.1 plain.2 present inum₃.symm

end

end StraceXv6.Kernel.Fs
