import Pintos.PageFault

/-! What memory accesses do to the pages of a process. A page is mapped only when an access
to it is made; it reads as zeros then, and other pages keep their entries. Two machines that
differ in bytes that no user address reaches cannot be told apart by such accesses. -/

namespace Pintos.Demand
open Stoppable Vaddr Palloc Pagedir PageFault

variable {s s' s'' t t' : Machine} {va va' : BitVec 32} {user : Bool}

def pteOf (s : Machine) (va : BitVec 32) : Option Pte := s.pagedir.bind fun pd => pd.pte va

theorem pteOf_congr (h : va.toNat / 4096 = va'.toNat / 4096) : pteOf s va = pteOf s va' := by
  rw [pteOf, pteOf]
  congr 1
  funext pd
  exact pte_congr h

theorem Brought.congr (h : Brought s va s') (page : va.toNat / 4096 = va'.toNat / 4096) :
    Brought s va' s' := by
  have round : pgRoundDown va = pgRoundDown va' := by
    apply BitVec.eq_of_toNat_eq
    rw [pgRoundDown_toNat, pgRoundDown_toNat]
    omega
  cases h with
  | intro dir absent taken table =>
    rw [round] at table ⊢
    exact .intro dir ((pte_congr page.symm).trans absent) taken table

theorem Brought.pteOf_other (h : Brought s va s') (page : va'.toNat / 4096 ≠ va.toNat / 4096) :
    pteOf s' va' = pteOf s va' := by
  cases h with
  | intro dir absent taken table =>
    rw [pteOf, pteOf, dir]
    change Directory.pte _ va' = Directory.pte _ va'
    rw [pte_map table, pgRoundDown_page, if_neg page]

theorem Brought.userByte_page (h : Brought s va s') (page : va.toNat / 4096 = va'.toNat / 4096) :
    s'.userByte va' = 0 := by
  obtain ⟨pd, x, dir, pte, -, zero⟩ := (Brought.congr h page).mapped
  rw [userByte_mapped dir pte, zero]

theorem Brought.ram (h : Brought s va s') (a : Nat) : s'.ram a = s.ram a ∨ s'.ram a = 0 := by
  have zeros : ∀ (m : Nat → UInt8) p n, ByteStore.splice m p (List.replicate n 0) a = m a ∨
      ByteStore.splice m p (List.replicate n 0) a = 0 := by
    intro m p n
    rw [zeros_store]
    split_ifs
    · exact .inr rfl
    · exact .inl rfl
  cases h with
  | @intro pd pt m m' kpage dir absent taken table =>
    have frame : (m.store kpage (List.replicate pgsize 0)).ram a = s.ram a ∨
        (m.store kpage (List.replicate pgsize 0)).ram a = 0 := by
      obtain ⟨b, size, rfl⟩ := taken.eq
      have := zeros (s.toMem.setMap true b size).ram kpage pgsize
      rwa [setMap_ram] at this
    change m'.ram a = _ ∨ m'.ram a = 0
    cases table with
    | old e => exact frame
    | @new page m'' e taken' =>
      obtain ⟨b, size, rfl⟩ := taken'.eq
      refine (zeros (Mem.setMap _ false b size).ram page pgsize).elim (fun kept => ?_) .inr
      rw [setMap_ram] at kept
      exact frame.imp kept.trans kept.trans

/-- Bytes of the user keep their value or become zero. -/
def Zeroed (s s' : Machine) : Prop := ∀ va, s'.userByte va = s.userByte va ∨ s'.userByte va = 0

theorem Zeroed.trans (h : Zeroed s s') (h' : Zeroed s' s'') : Zeroed s s'' := fun va =>
  (h' va).elim (fun e => (h va).imp e.trans e.trans) .inr

theorem Brought.zeroed (h : Brought s va s') : Zeroed s s' := fun va' => by
  by_cases page : va.toNat / 4096 = va'.toNat / 4096
  · exact .inr (Brought.userByte_page h page)
  have other := Brought.pteOf_other h (Ne.symm page)
  rw [pteOf, pteOf] at other
  rw [Machine.userByte, Machine.userByte, other]
  cases s.pagedir.bind fun pd => pd.pte va' with
  | none => exact .inl rfl
  | some x => exact Brought.ram h _

/-- Every page that is mapped has been mapped before, or one of the accesses since was made
to it. -/
def Demanded (s s' : Machine) : Prop :=
  ∃ new, s'.touched = new ++ s.touched ∧ ∀ va, pteOf s' va ≠ none →
    pteOf s va ≠ none ∨ ∃ e ∈ new, e.2.toNat / 4096 = va.toNat / 4096

theorem Demanded.refl (s : Machine) : Demanded s s := ⟨[], rfl, fun _ => .inl⟩

theorem Demanded.trans (h : Demanded s s') (h' : Demanded s' s'') : Demanded s s'' := by
  obtain ⟨new, log, old⟩ := h
  obtain ⟨new', log', old'⟩ := h'
  refine ⟨new' ++ new, by rw [log', log, List.append_assoc], fun va there => ?_⟩
  rcases old' va there with before | ⟨e, mem, page⟩
  · refine (old va before).imp_right ?_
    rintro ⟨e, mem, page⟩
    exact ⟨e, List.mem_append_right _ mem, page⟩
  · exact .inr ⟨e, List.mem_append_left _ mem, page⟩

theorem Demanded.suffix (h : Demanded s s') : s.touched <:+ s'.touched := by
  obtain ⟨new, log, -⟩ := h
  exact ⟨new, log.symm⟩

instance : IsPreorder Machine Demanded where
  refl := Demanded.refl
  trans _ _ _ := Demanded.trans

def SameDir (s s' : Space) : Prop := s'.pagedir = s.pagedir

instance : IsPreorder Space SameDir where
  refl _ := rfl
  trans _ _ _ h h' := Eq.trans h' h

theorem processExit_pagedir (s : Machine) :
    (processExit.run s).2.pagedir = none ∧ (processExit.run s).2.touched = s.touched := by
  rw [processExit, Exec.run_bind_ok (Exec.run_state s)]
  cases dir : s.pagedir with
  | none => exact ⟨dir, rfl⟩
  | some pd =>
    simp only
    rw [Exec.run_bind_ok (run_paging (rfl : (setPagedir none).run s.toSpace = _))]
    have kept : Exec.Moves SameDir (pagedirDestroy (some pd)) :=
      pagedirDestroy_moves (fun _ _ => rfl) _
    generalize pagedirDestroy (some pd) = destroy at kept ⊢
    exact ⟨kept _, rfl⟩

theorem threadExit_demanded (α : Type) : Exec.Moves Demanded (threadExit : Cpu α) := by
  refine .bind (fun s => ?_) fun _ => .stop _
  obtain ⟨dir, log⟩ := processExit_pagedir s
  refine ⟨[], log, fun va there => absurd ?_ there⟩
  rw [pteOf, dir, Option.bind_none]

theorem kill_demanded (α : Type) (f : Frame) : Exec.Moves Demanded (kill f : Cpu α) := by
  unfold kill
  split_ifs
  · exact threadExit_demanded α
  · exact .stop _
  · exact threadExit_demanded α

theorem log_demanded (s : Machine) (kind : Kind) (va : BitVec 32) (m : Mem) :
    Demanded s { s.log kind va with toMem := m } :=
  ⟨[(kind, va)], rfl, fun _ => .inl⟩

theorem Accessed.demanded {kind : Kind} {w : Option UInt8} {eip eax : BitVec 32}
    {r : Except Stop (BitVec 32) × Machine} (h : Accessed user (s.log kind va) va w eip eax r) :
    Demanded s r.2 := by
  have performed : ∀ (s' : Machine) a, Demanded s s' → Demanded s (perform s' a w eax).2 := by
    intro s' a before
    cases w with
    | none => exact before
    | some b => exact before
  cases h with
  | made hit => exact performed _ _ (log_demanded s kind va s.toMem)
  | @brought s' a addr brought hit =>
    refine performed s' a ⟨[(kind, va)], ?_, fun va' there => ?_⟩
    · cases brought
      rfl
    · by_cases page : va'.toNat / 4096 = va.toNat / 4096
      · exact .inr ⟨_, List.mem_singleton_self _, page.symm⟩
      · rw [Brought.pteOf_other brought page] at there
        exact .inl there
  | lost fault same => exact (log_demanded s kind va _).trans (kill_demanded _ _ _)
  | panic dir => exact log_demanded s kind va s.toMem

theorem getUser_demanded (va : BitVec 32) : Exec.Moves Demanded (getUser va) := fun s =>
  Accessed.demanded (getUser_spec s va)
variable {b code : BitVec 32}

theorem getUser_value (addr : isUserVaddr va = true) (run : (getUser va).run s = (.ok b, s')) :
    b = (s.userByte va).toBitVec.setWidth 32 := by
  have spec := getUser_spec s va
  rw [run] at spec
  rcases spec.read addr with value | panic
  · exact Except.ok.inj value
  · cases panic

theorem getUser_ok (run : (getUser va).run s = (.ok b, s')) :
    s' = s.log .getUser va ∨ Brought (s.log .getUser va) va s' := by
  have spec := getUser_spec s va
  rw [run] at spec
  generalize pair : ((.ok b, s') : Except Stop (BitVec 32) × Machine) = r at spec
  cases spec with
  | made hit =>
    cases pair
    exact .inl rfl
  | brought _ brought hit =>
    cases pair
    exact .inr brought
  | lost _ _ =>
    rw [kill_kernel] at pair
    cases pair
  | panic _ => cases pair

theorem getUser_touched (run : (getUser va).run s = (.ok b, s')) :
    s'.touched = (.getUser, va) :: s.touched := by
  rcases getUser_ok run with rfl | brought
  · rfl
  · cases brought
    rfl

/-- Machines that differ at most in bytes that no user address reaches. -/
def SameUser (s t : Machine) : Prop :=
  (∃ ram, t = { s with toMem := s.toMem.withRam ram }) ∧
    ∀ va, isUserVaddr va = true → s.userByte va = t.userByte va

/-- The bytes that user addresses reach. -/
def Reached (s : Machine) (a : Nat) : Prop :=
  ∃ va x, isUserVaddr va = true ∧ pteOf s va = some x ∧ a = frameAddr x va

theorem userByte_pteOf {x : Pte} (h : pteOf s va = some x) : s.userByte va = s.ram (frameAddr x va) := by
  rw [pteOf] at h
  rw [Machine.userByte, h]

theorem SameUser.hidden (h : SameUser s t) : MachineHidden (Reached s) s t := by
  obtain ⟨⟨ram, rfl⟩, same⟩ := h
  refine ⟨s.toMem.withRam ram, ⟨ram, rfl, ?_⟩, rfl⟩
  rintro a ⟨va, x, addr, pte, rfl⟩
  have byte := same va addr
  rwa [userByte_pteOf pte, userByte_pteOf (s := { s with toMem := s.toMem.withRam ram }) pte] at byte

theorem SameUser.log (h : SameUser s t) (kind : Kind) (va : BitVec 32) :
    SameUser (s.log kind va) (t.log kind va) := by
  obtain ⟨⟨ram, rfl⟩, same⟩ := h
  exact ⟨⟨ram, rfl⟩, same⟩

theorem Brought.sameUser (h : Brought s va s') (h' : Brought t va t')
    (same : MachineHidden (Reached s) s' t') : SameUser s' t' := by
  obtain ⟨m, ⟨ram, rfl, visible⟩, rfl⟩ := same
  refine ⟨⟨ram, rfl⟩, fun va' addr => ?_⟩
  by_cases page : va.toNat / 4096 = va'.toNat / 4096
  · rw [Brought.userByte_page h page, Brought.userByte_page h' page]
  cases pte : pteOf s' va' with
  | none =>
    rw [pteOf] at pte
    rw [Machine.userByte, Machine.userByte, pte]
  | some x =>
    rw [userByte_pteOf pte, userByte_pteOf (s := { s' with toMem := s'.toMem.withRam ram }) pte]
    exact visible _ ⟨va', x, addr, (Brought.pteOf_other h (Ne.symm page)).symm.trans pte, rfl⟩

theorem translate_absent (addr : isUserVaddr va = true)
    (h : s.translate va false user = .error code) :
    pteOf s va = none ∧ code = errorCode false false user := by
  cases pte : pteOf s va with
  | none =>
    rw [pteOf] at pte
    rw [Machine.translate, if_pos addr, pte] at h
    exact ⟨rfl, (Except.error.inj h).symm⟩
  | some x =>
    obtain ⟨pd, dir, pte⟩ := Option.bind_eq_some_iff.mp pte
    rw [translate_mapped addr dir pte (by simp)] at h
    cases h

def getUserFrame (s : Machine) (code : BitVec 32) : Frame :=
  accessFrame false code s.getUserSite.access s.getUserSite.next

theorem getUser_fault (addr : isUserVaddr va = true)
    (fault : s.translate va false false = .error code) :
    (∃ s' b, Brought (s.log .getUser va) va s' ∧ (pageFault (getUserFrame s code) va).run
        (s.log .getUser va) = (.ok (getUserFrame s code), s') ∧
        (getUser va).run s = (.ok b, s')) ∨
      ∃ s', (pageFault (getUserFrame s code) va).run (s.log .getUser va) = (.error .panic, s') ∧
        (getUser va).run s = (.error .panic, s') := by
  obtain ⟨absent, rfl⟩ := translate_absent addr fault
  have miss : (s.log .getUser va).translate va (none : Option UInt8).isSome false =
    .error (errorCode false false false) := fault
  have lost : ∀ s', (pageFault (getUserFrame s (errorCode false false false)) va).run
      (s.log .getUser va) = (.error .panic, s') → (getUser va).run s = (.error .panic, s') := by
    intro s' run
    rw [run_getUser, attempt_fault miss, ← getUserFrame, Exec.run_bind_error run]
  have code : (getUserFrame s (errorCode false false false)).errorCode =
    errorCode false false false := rfl
  cases dir : s.pagedir with
  | none =>
    have run := pageFault_noDir (s := s.log .getUser va) addr dir code (.inr s.getUserSite.ne)
    exact .inr ⟨_, run, lost _ run⟩
  | some pd =>
    rw [pteOf, dir, Option.bind_some] at absent
    rcases pageFault_absent (s := s.log .getUser va) addr dir absent code
      (.inr s.getUserSite.ne) with ⟨s', brought, run⟩ | ⟨m, -, run⟩
    · obtain ⟨pd, x, dir, pte, -⟩ := brought.mapped
      have hit : s'.translate va false false = .ok (frameAddr x va) :=
        translate_mapped addr dir pte (by simp)
      have read : ∃ b, (getUser va).run s = (.ok b, s') := by
        rw [run_getUser, attempt_fault miss, ← getUserFrame, Exec.run_bind_ok run,
          if_pos (by rfl), attempt_hit (w := none) hit 0]
        exact ⟨_, rfl⟩
      exact .inl ⟨s', read.choose, brought, run, read.choose_spec⟩
    · have run := run.trans (kill_kernel _ _ _ _)
      exact .inr ⟨_, run, lost _ run⟩

/-- A read of user memory tells nothing about bytes that no user address reaches. -/
theorem getUser_same (addr : isUserVaddr va = true) (same : SameUser s t)
    (run : (getUser va).run s = (.ok b, s')) :
    ∃ t', (getUser va).run t = (.ok b, t') ∧ SameUser s' t' := by
  have reads : ∀ c t', (getUser va).run t = (.ok c, t') → c = b := by
    intro c t' run'
    rw [getUser_value addr run, getUser_value addr run', same.2 va addr]
  have translates : t.translate va false false = s.translate va false false := by
    obtain ⟨⟨ram, rfl⟩, -⟩ := same
    rfl
  have frame : ∀ code, getUserFrame t code = getUserFrame s code := by
    obtain ⟨⟨ram, rfl⟩, -⟩ := same
    exact fun _ => rfl
  cases h : s.translate va false false with
  | ok a =>
    have hit : ∀ s : Machine, s.translate va false false = .ok a →
        ∃ b, (getUser va).run s = (.ok b, s.log .getUser va) := by
      intro s h
      rw [run_getUser, attempt_tries_hit (s := s.log .getUser va) (w := none) h]
      exact ⟨_, rfl⟩
    obtain ⟨c, run'⟩ := hit t (translates.trans h)
    obtain ⟨d, here⟩ := hit s h
    rw [run] at here
    cases here
    cases reads _ _ run'
    exact ⟨_, run', same.log _ _⟩
  | error code =>
    have respects := pageFault_respects (getUserFrame s code) va _ _ (same.log .getUser va).hidden
    rcases getUser_fault addr h with ⟨s1, c, brought, fault, read⟩ | ⟨s1, fault, read⟩
    · rw [run] at read
      cases read
      rcases getUser_fault addr (translates.trans h) with
        ⟨t1, d, brought', fault', read'⟩ | ⟨t1, fault', read'⟩
      · rw [frame] at fault'
        rw [fault, fault'] at respects
        cases reads _ _ read'
        exact ⟨t1, read', Brought.sameUser brought brought' respects.2⟩
      · rw [frame] at fault'
        rw [fault, fault'] at respects
        cases respects.1
    · rw [run] at read
      cases read

end Pintos.Demand
