import Pintos.HeapBook
import Pintos.Transition

/-! Whole runs of the allocator: any sequence of calls on blocks that are in use, with clients
that write to their blocks and with the rest of the kernel at work in between. -/

namespace Pintos.HeapRuns

open ByteStore Links Stoppable Vaddr Accounts Heap HeapLayout HeapSteps HeapCalls HeapBook
open Palloc hiding update
open Transition Function
open Exec (run_bind_ok)

variable {descs : Nat} {d : Desc} {b n : Nat} {kind : Nat → Option Kind} {cnt : Nat → Nat}
  {free : Desc → List Nat} {s : Arenas} {live : Ledger} {g : Grant} {o : Obj} {ram : Nat → UInt8}

section Init

/-- Memory once the list of `d` is made empty. -/
def emptied (ram : Nat → UInt8) (d : Desc) : Nat → UInt8 :=
  setWord (setWord (setWord (setWord ram d.head 0) (d.head + 4) d.tail) d.tail d.head)
    (d.tail + 4) 0

theorem run_listInit (d : Desc) (s : Arenas) :
    (listInit d).run s = (.ok (), s.withRam (emptied s.ram d)) := rfl

theorem seg_listInit (ram : Nat → UInt8) (bound : d.addr + 48 ≤ 2 ^ 32) :
    Seg (emptied ram d) d.head [] d.tail := by
  simp only [emptied, Desc.head, Desc.tail] at *
  constructor
  · rw [next, word_setWord_other (by omega), word_setWord_other (by omega), word_setWord (by omega)]
  · rw [prev, word_setWord_other (by omega), word_setWord (by omega)]

theorem seg_listInit_other {d' : Desc} (apart : d.addr + 48 ≤ d'.addr ∨ d'.addr + 48 ≤ d.addr)
    (seg : Seg ram d'.head [] d'.tail) : Seg (emptied ram d) d'.head [] d'.tail := by
  have off (a : Nat) (low : d'.addr ≤ a) (high : a + 4 ≤ d'.addr + 48) :
      word (emptied ram d) a = word ram a := by
    simp (disch := omega) only [emptied, Desc.head, Desc.tail, word_setWord_other]
  simp only [Desc.head, Desc.tail] at seg ⊢
  exact ⟨(off _ (by omega) (by omega)).trans seg.1, (off _ (by omega) (by omega)).trans seg.2⟩

theorem initLoop_spec {i : Nat} (sum : i + n = 10) (le : i ≤ 7) (bound : descs + 480 ≤ 2 ^ 32)
    (made : s.descs = (List.range i).map (descAt descs))
    (lists : ∀ j < i, Seg s.ram (descAt descs j).head [] (descAt descs j).tail) :
    ∃ ram, (initLoop n (descs + sizeofDesc * i) (16 * 2 ^ i)).run s =
        (.ok (), ({ s with descs := table descs } : Arenas).withRam ram) ∧
      ∀ d ∈ table descs, Seg ram d.head [] d.tail := by
  induction n generalizing i s with
  | zero => omega
  | succ n ih =>
    by_cases more : i < 7
    · have size : 16 * 2 ^ i < pgsize / 2 := by
        have small : ∀ i < 7, 16 * 2 ^ i < 2048 := by decide
        exact small i more
      have next : descs + sizeofDesc * i + sizeofDesc = descs + sizeofDesc * (i + 1) := by
        rw [Nat.mul_succ, Nat.add_assoc]
      have double : 16 * 2 ^ i * 2 = 16 * 2 ^ (i + 1) := by rw [Nat.pow_succ, Nat.mul_assoc]
      have fits : (descAt descs i).addr + 48 ≤ 2 ^ 32 := by
        simp only [descAt, sizeofDesc]
        omega
      let t : Arenas := { s with descs := s.descs ++ [descAt descs i] }
      obtain ⟨ram, run, all⟩ := ih (i := i + 1) (s := ((listInit (descAt descs i)).run t).2)
        (by omega) (by omega) (by
          rw [run_listInit, List.range_succ, List.map_append]
          exact congrArg (· ++ [descAt descs i]) made) (by
          intro j less
          rw [run_listInit]
          by_cases same : j = i
          · subst same
            exact seg_listInit _ fits
          · refine seg_listInit_other ?_ (lists j (by omega))
            simp only [descAt, sizeofDesc]
            omega)
      refine ⟨ram, ?_, all⟩
      rw [initLoop, if_pos size, run_bind_ok (Exec.run_modify _ _)]
      refine (run_bind_ok (run_listInit (descAt descs i) t) _).trans ?_
      rw [next, double]
      exact run
    · have last : i = 7 := by omega
      subst last
      refine ⟨s.ram, ?_, fun d hd => ?_⟩
      · rw [initLoop, if_neg (by decide)]
        cases s
        cases made
        rfl
      · obtain ⟨j, less, rfl⟩ := mem_table.mp hd
        exact lists j less

theorem mallocInit_spec {m : Mem} (above : physBase.toNat ≤ descs)
    (below : descs + sizeofDesc * 10 ≤ m.kernelPool.base) :
    ∃ s, (mallocInit descs).run ⟨m, []⟩ = (.ok (), s) ∧ Book descs s (fun _ => none) (fun _ => none)
    (fun _ => 0) (fun _ => []) := by
  have apart := m.apart
  have room := m.room
  have fits := m.fits
  simp only [sizeofDesc, pgsize, pgbits] at below apart room fits
  obtain ⟨ram, run, lists⟩ := initLoop_spec (i := 0) (s := ⟨m, []⟩) (n := 10) rfl (by omega)
    (by omega : descs + 480 ≤ 2 ^ 32) rfl (fun j less => absurd less (Nat.not_lt_zero j))
  refine ⟨_, run, ⟨⟨⟨rfl, ⟨above, ?_, ?_, ?_, ?_, ?_⟩, ⟨?_, ?_, ?_, ?_, ?_, ?_, ?_⟩⟩, ?_, ?_, ?_, ?_,
    ?_⟩, ?_⟩⟩
  · exact Nat.le_trans (by omega) below
  all_goals first | exact lists | simp [Busy]

end Init

theorem write_spec (h : Book descs s live kind cnt free) (inside : o.In descs kind)
    (used : live o.low ≠ none) (same : ∀ x, x < o.low ∨ o.high ≤ x → ram x = s.ram x) :
    Book descs (s.withRam ram) live kind cnt free ∧ Touches descs kind (· = o) s.ram ram := by
  obtain ⟨g, hosts⟩ := h.hosts_some inside used
  obtain ⟨held, touch⟩ := h.held.write inside (fun a e => by rw [e] at hosts; exact hosts)
    (fun d e => by rw [e] at hosts; exact hosts)
    (fun a d i e mem => h.off_list inside used (a := a) (.inl (.inr ⟨a, i, e, mem⟩))) same
  exact ⟨⟨{ h.toEntries with held := held }, h.busy⟩, touch⟩

theorem size_le (hosts : Hosts o g) : g.size ≤ o.high - o.low := by
  cases o with
  | desc | header => exact hosts.elim
  | block a d i =>
    simp only [Obj.high, Obj.low, Nat.add_sub_cancel_left]
    exact hosts.1
  | payload a n =>
    have room := hosts.2.1
    simp only [Obj.high, Obj.low]
    omega

structure Granted (descs : Nat) (s s' : Arenas) (live : Ledger) (kind : Nat → Option Kind)
    (size b : Nat) : Prop where
  fresh : live b = none
  more : usedPages s.toMem ⊆ usedPages s'.toMem
  book : ∃ kind' cnt' free', Book descs s' (update live b
      (some ⟨size, usedPages s'.toMem \ usedPages s.toMem⟩)) kind' cnt' free' ∧
    Kept descs kind kind' live s.ram s'.ram

theorem malloc_granted {size : BitVec 32} (h : Book descs s live kind cnt free)
    (lt : size.toNat < 2 ^ 31) :
    (∃ b s', (malloc size).run s = (.ok (some b), s') ∧ Granted descs s s' live kind size.toNat b) ∨
    (malloc size).run s = (.ok none, s) := by
  rcases h.malloc lt with ⟨b, s', kind', cnt', free', run, fresh, more, book, kept, -⟩ | ⟨-, run⟩
  · exact .inl ⟨b, s', run, fresh, more, kind', cnt', free', book, kept⟩
  · exact .inr run

variable {s' : Arenas} {w : World} {c : Call}

theorem Granted.write (h : Granted descs s s' live kind n b)
    (same : ∀ x, x < b ∨ b + n ≤ x → ram x = s'.ram x) :
    Granted descs s (s'.withRam ram) live kind n b := by
  obtain ⟨kind', cnt', free', book, kept⟩ := h.book
  have used : update live b (some ⟨n, usedPages s'.toMem \ usedPages s.toMem⟩) b ≠ none := by simp
  obtain ⟨o, inside, rfl, hosts⟩ := book.owner b _ (update_self ..)
  have size := size_le hosts
  have extent := Shape.nonempty book.held.shape inside
  have within : ∀ x, x < o.low ∨ o.high ≤ x → ram x = s'.ram x := fun x off =>
    same x (off.imp id fun le => by simp only at size; omega)
  obtain ⟨book', touch⟩ := write_spec book inside used within
  refine ⟨h.fresh, ?_, kind', cnt', free', ?_, fun o' inside' used' => ?_⟩
  · rw [usedPages_withRam]
    exact h.more
  · rw [usedPages_withRam]
    exact book'
  · obtain ⟨there, agree⟩ := kept o' inside' used'
    have ne : o' ≠ o := fun e => used' (e ▸ h.fresh)
    exact ⟨there, fun x low high => (touch o' there ne x low high).trans (agree x low high)⟩

theorem calloc_granted {a b : BitVec 32} (h : Book descs s live kind cnt free)
    (lt : a.toNat * b.toNat < 2 ^ 31) :
    (∃ p s', (calloc a b).run s = (.ok (some p), s') ∧
      Granted descs s s' live kind (a.toNat * b.toNat) p ∧
      ∀ x < a.toNat * b.toNat, s'.ram (p + x) = 0) ∨
    (calloc a b).run s = (.ok none, s) := by
  have size : (a * b).toNat = a.toNat * b.toNat := by
    rw [BitVec.toNat_mul, Nat.mod_eq_of_lt (by omega)]
  rw [calloc]
  by_cases small : a * b < a ∨ a * b < b
  · exact .inr (by simp only [if_pos small]; rfl)
  simp only [if_neg small]
  rcases malloc_granted h (size.trans_lt lt) with ⟨p, s', run, granted⟩ | run
  · left
    rw [size] at granted
    refine ⟨p, s'.withRam (splice s'.ram p (List.replicate (a.toNat * b.toNat) 0)), ?_,
      granted.write fun x off => fill_other off, fun x less => ?_⟩
    · rw [run_bind_ok run]
      simp only [size]
      rfl
    · have inner := splice_of_mem s'.ram (a := p) (x := p + x)
        (List.replicate (a.toNat * b.toNat) 0) (by omega) (by rw [List.length_replicate]; omega)
      change splice s'.ram p _ (p + x) = 0
      rw [inner]
      simp
  · right
    rw [run_bind_ok run]
    rfl

structure World where
  arenas : Arenas
  live : Ledger

inductive Call where
  | malloc (size : BitVec 32)
  | calloc (a b : BitVec 32)
  | realloc (block : Option Nat) (size : BitVec 32)
  | free (block : Option Nat)

def Call.perform : Call → Malloc (Option Nat)
  | .malloc size => Heap.malloc size
  | .calloc a b => Heap.calloc a b
  | .realloc block size => Heap.realloc block size
  | .free block => do
    Heap.free block
    pure none

def Call.size : Call → Nat
  | .malloc size => size.toNat
  | .calloc a b => a.toNat * b.toNat
  | .realloc _ size => size.toNat
  | .free _ => 0

def Call.block : Call → Option Nat
  | .realloc block _ => block
  | .free block => block
  | _ => none

/-- The block that is no longer in use when the call has returned `r`. -/
def Call.released : Call → Option Nat → Option Nat
  | .realloc block size, r => if size = 0 ∨ r ≠ none then block else none
  | .free block, _ => block
  | _, _ => none

def strike (live : Ledger) : Option Nat → Ledger
  | none => live
  | some b => update live b none

def enter (live : Ledger) (g : Grant) : Option Nat → Ledger
  | none => live
  | some b => update live b (some g)

def World.after (w : World) (c : Call) (r : Option Nat) (s : Arenas) : World where
  arenas := s
  live := enter (strike w.live (c.released r))
    ⟨c.size, usedPages s.toMem \ usedPages w.arenas.toMem⟩ r

/-- What a call did, in terms of the layout before and after it. -/
structure Outcome (descs : Nat) (w : World) (kind kind' : Nat → Option Kind) (c : Call)
    (r : Option Nat) (s' : Arenas) : Prop where
  kept : ∀ o, Obj.In descs kind o → w.live o.low ≠ none → c.released r ≠ some o.low →
    o.In descs kind' ∧ Agree w.arenas.ram s'.ram o
  fresh : ∀ p, r = some p → w.live p = none
  nothing : c.released r = none → usedPages w.arenas.toMem ⊆ usedPages s'.toMem
  returned : ∀ b g, c.released r = some b → w.live b = some g →
    Returned (w.after c r s').live b g (usedPages w.arenas.toMem \ usedPages s'.toMem)
  gone : ∀ b, c.released r = some b → ¬Shared (w.after c r s').live b → kind' (arenaOf b) = none
  zero : ∀ a b p, c = .calloc a b → r = some p → ∀ x < c.size, s'.ram (p + x) = 0
  moved : ∀ o size p, c = .realloc (some o.low) size → r = some p → Obj.In descs kind o →
    ∀ x < min (o.high - o.low) size.toNat, s'.ram (p + x) = w.arenas.ram (o.low + x)
  failed : r = none → c.released r = none → s' = w.arenas

def Ends (descs : Nat) (w : World) (kind : Nat → Option Kind) (c : Call) (r : Option Nat)
    (s' : Arenas) : Prop :=
  ∃ kind' cnt' free', Book descs s' (w.after c r s').live kind' cnt' free' ∧
    Outcome descs w kind kind' c r s'

def Returns (descs : Nat) (w : World) (kind : Nat → Option Kind) (c : Call) : Prop :=
  ∃ r s', c.perform.run w.arenas = (.ok r, s') ∧ Ends descs w kind c r s'

theorem Outcome.idle (keeps : c.released none = none) :
    Outcome descs w kind kind c none w.arenas where
  kept o ho _ _ := ⟨ho, fun _ _ _ => rfl⟩
  fresh := nofun
  nothing _ := subset_rfl
  returned b g h := by rw [keeps] at h; cases h
  gone b h := by rw [keeps] at h; cases h
  zero := nofun
  moved := nofun
  failed _ _ := rfl

theorem Ends.idle (h : Book descs w.arenas w.live kind cnt free) (keeps : c.released none = none) :
    Ends descs w kind c none w.arenas := by
  have live : (w.after c none w.arenas).live = w.live := by
    simp only [World.after, enter, keeps, strike]
  exact ⟨kind, cnt, free, live ▸ h, .idle keeps⟩

theorem Granted.outcome (released : c.released (some b) = none)
    (h : Granted descs w.arenas s' w.live kind c.size b)
    (zero : ∀ a a', c = .calloc a a' → ∀ x < c.size, s'.ram (b + x) = 0)
    (move : ∀ p size, c ≠ .realloc (some p) size) : Ends descs w kind c (some b) s' := by
  obtain ⟨kind', cnt', free', book, kept⟩ := h.book
  have live : (w.after c (some b) s').live = update w.live b
      (some ⟨c.size, usedPages s'.toMem \ usedPages w.arenas.toMem⟩) := by
    simp only [World.after, enter, released, strike]
  refine ⟨kind', cnt', free', live ▸ book, ⟨fun o ho used _ => kept o ho used, fun p e => ?_,
    fun _ => h.more, fun _ _ e => ?_, fun _ e => ?_, fun a a' p e e' => ?_, fun o size p e => ?_,
    nofun⟩⟩
  · cases e
    exact h.fresh
  · rw [released] at e
    cases e
  · rw [released] at e
    cases e
  · cases e'
    exact zero a a' e
  · exact absurd e (move _ _)

theorem shared_strike : Shared (update live b none) b ↔ Shared live b := by
  constructor
  · rintro ⟨b', ne, used, same⟩
    rw [update_of_ne ne] at used
    exact ⟨b', ne, used, same⟩
  · rintro ⟨b', ne, used, same⟩
    exact ⟨b', ne, by rwa [update_of_ne ne], same⟩

theorem Returned.strike {pages : Set Page} (h : Returned live b g pages) :
    Returned (update live b none) b g pages :=
  ⟨h.big, fun small shared => h.shared small (shared_strike.mp shared),
    fun small alone => h.last small fun shared => alone (shared_strike.mpr shared)⟩

theorem give_outcome (h : Book descs w.arenas w.live kind cnt free)
    (released : c.released none = some b) (hg : w.live b = some g)
    (run : c.perform.run w.arenas = ((do
      Heap.free (some b)
      pure none : Malloc (Option Nat))).run w.arenas) : Returns descs w kind c := by
  obtain ⟨s', kind', cnt', free', give, book, kept, -, ⟨pages, less, returned⟩, gone⟩ := h.give hg
  have live : (w.after c none s').live = update w.live b none := by
    simp only [World.after, enter, released, strike]
  have sub := h.returned_used hg returned
  refine ⟨none, s', ?_, kind', cnt', free', live ▸ book, ⟨fun o ho used ne => kept o ho ?_, nofun,
    fun e => ?_, fun b' g' e hg' => ?_, fun b' e alone => ?_, nofun, nofun, fun _ e => ?_⟩⟩
  · rw [run, run_bind_ok give]
    rfl
  · rwa [update_of_ne fun same => ne (by rw [released, same])]
  · rw [released] at e
    cases e
  · rw [released] at e
    cases e
    rw [hg] at hg'
    cases hg'
    rw [less, Set.sdiff_sdiff_right_self, Set.inter_eq_self_of_subset_right sub, live]
    exact Returned.strike returned
  · rw [released] at e
    cases e
    rw [live, shared_strike] at alone
    exact gone alone
  · rw [released] at e
    cases e

theorem realloc_outcome {old : Nat} {size : BitVec 32}
    (h : Book descs w.arenas w.live kind cnt free) (hg : w.live old = some g)
    (lt : size.toNat < 2 ^ 31) (nonzero : size ≠ 0) :
    Returns descs w kind (.realloc (some old) size) := by
  have keeps : (Call.realloc (some old) size).released none = none := by
    rw [Call.released, if_neg (by simpa using nonzero)]
  rcases malloc_granted h lt with ⟨p, s1, run, granted⟩ | run
  swap
  · refine ⟨none, w.arenas, ?_, .idle h keeps⟩
    simp only [Call.perform]
    rw [Heap.realloc, if_neg nonzero, run_bind_ok run]
    rfl
  have released : (Call.realloc (some old) size).released (some p) = some old := by
    simp [Call.released]
  have ne : old ≠ p := fun same => by
    rw [same, granted.fresh] at hg
    cases hg
  obtain ⟨o, inside, rfl, hosts⟩ := h.owner old g hg
  have used : w.live o.low ≠ none := by simp [hg]
  obtain ⟨kind1, cnt1, free1, book1, kept1⟩ := granted.book
  obtain ⟨inside1, agree1⟩ := kept1 o inside used
  have extent := book1.blockSize inside1 hosts
  have copied : Granted descs w.arenas (s1.withRam (splice s1.ram p
      (slice s1.ram o.low (min size.toNat (o.high - o.low))))) w.live kind size.toNat p :=
    granted.write fun x off => splice_off _ _ (by rw [slice_length]; omega)
  generalize hs2 : s1.withRam (splice s1.ram p
    (slice s1.ram o.low (min size.toNat (o.high - o.low)))) = s2 at copied
  obtain ⟨kind2, cnt2, free2, book2, kept2⟩ := copied.book
  have hg2 : update w.live p
      (some ⟨size.toNat, usedPages s2.toMem \ usedPages w.arenas.toMem⟩) o.low = some g := by
    rw [update_of_ne ne, hg]
  obtain ⟨s3, kind3, cnt3, free3, give, book3, kept3, -, ⟨pages, less, returned⟩, gone⟩ :=
    book2.give hg2
  have sub := h.returned_used hg returned
  have took : usedPages s3.toMem \ usedPages w.arenas.toMem =
      usedPages s2.toMem \ usedPages w.arenas.toMem := by
    rw [less, sdiff_sdiff, sup_comm, sup_eq_left.mpr sub]
  have back : usedPages w.arenas.toMem \ usedPages s3.toMem = pages := by
    rw [less]
    ext c
    simp only [Set.mem_sdiff, not_and, not_not]
    exact ⟨fun ⟨here, out⟩ => out (copied.more here), fun there => ⟨sub there, fun _ => there⟩⟩
  have live : (w.after (.realloc (some o.low) size) (some p) s3).live =
      update (update w.live p
        (some ⟨size.toNat, usedPages s2.toMem \ usedPages w.arenas.toMem⟩)) o.low none := by
    simp only [World.after, enter, released, strike, Call.size, took]
    rw [update_comm ne]
  refine ⟨some p, s3, ?_, kind3, cnt3, free3, live ▸ book3, ⟨fun o' ho' used' off => ?_,
    fun p' e => ?_, fun e => ?_, fun b' g' e hg' => ?_, fun b' e alone => ?_, nofun,
    fun o' size' p' e e' ho' x less' => ?_, nofun⟩⟩
  · simp only [Call.perform]
    rw [Heap.realloc, if_neg nonzero, run_bind_ok run]
    have write : (copy p o.low (min size.toNat (o.high - o.low))).run s1 = (.ok (), s2) :=
      Prod.ext rfl hs2
    refine (run_bind_ok extent _).trans ((run_bind_ok write _).trans ?_)
    exact run_bind_ok give _
  · have differ : o'.low ≠ o.low := fun same => off (by rw [released, same])
    have old : o'.low ≠ p := fun same => used' (by rw [same, granted.fresh])
    obtain ⟨inside2, agree2⟩ := kept2 o' ho' used'
    obtain ⟨inside3, agree3⟩ := kept3 o' inside2 (by
      rwa [update_of_ne differ, update_of_ne old])
    exact ⟨inside3, fun x low high => (agree3 x low high).trans (agree2 x low high)⟩
  · cases e
    exact granted.fresh
  · rw [released] at e
    cases e
  · rw [released] at e
    cases e
    rw [hg] at hg'
    cases hg'
    rw [back, live]
    exact Returned.strike returned
  · rw [released] at e
    cases e
    rw [live, shared_strike] at alone
    exact gone alone
  · injection e with same sizes
    have equal : o = o' := Shape.low_unique h.held.shape inside ho' (Option.some.inj same)
    subst equal sizes
    cases e'
    obtain ⟨new, inside2, here, hosts2⟩ := book2.owner p _ (update_self ..)
    have room : size.toNat ≤ new.high - new.low := size_le hosts2
    obtain ⟨-, agree3⟩ := kept3 new inside2 (by
      rw [here, update_of_ne (Ne.symm ne), update_self]
      simp)
    calc s3.ram (p + x) = s2.ram (p + x) := agree3 _ (by omega) (by omega)
      _ = s1.ram (o.low + x) := by
        rw [← hs2]
        refine (splice_of_mem _ _ (Nat.le_add_right p x) (by rw [slice_length]; omega)).trans ?_
        rw [Nat.add_sub_cancel_left, slice_getD _ _ _ _ (by omega)]
      _ = w.arenas.ram (o.low + x) := agree1 _ (by omega) (by omega)

/-- Sizes below 2 GB, and only blocks that are in use. -/
def Call.Proper (c : Call) (live : Ledger) : Prop :=
  c.size < 2 ^ 31 ∧ ∀ b, c.block = some b → live b ≠ none

theorem call_outcome (h : Book descs w.arenas w.live kind cnt free) (proper : c.Proper w.live) :
    Returns descs w kind c := by
  have stay (keeps : c.released none = none)
      (run : c.perform.run w.arenas = (.ok none, w.arenas)) : Returns descs w kind c :=
    ⟨none, w.arenas, run, .idle h keeps⟩
  obtain ⟨lt, owned⟩ := proper
  cases c with
  | malloc size =>
    rcases malloc_granted h lt with ⟨p, s', run, granted⟩ | run
    · exact ⟨some p, s', run, granted.outcome (c := .malloc size) rfl nofun nofun⟩
    · exact stay rfl run
  | calloc a b =>
    rcases calloc_granted h lt with ⟨p, s', run, granted, zero⟩ | run
    · exact ⟨some p, s', run, granted.outcome (c := .calloc a b) rfl (fun _ _ _ => zero) nofun⟩
    · exact stay rfl run
  | free block =>
    cases block with
    | none => exact stay rfl rfl
    | some b =>
      obtain ⟨g, hg⟩ := Option.ne_none_iff_exists'.mp (owned b rfl)
      exact give_outcome h rfl hg rfl
  | realloc block size =>
    cases block with
    | none =>
      have keeps : ∀ r, (Call.realloc none size).released r = none := fun r => by
        rw [Call.released]
        split <;> rfl
      by_cases zero : size = 0
      · refine stay (keeps none) ?_
        simp only [Call.perform, Heap.realloc, if_pos zero]
        rfl
      rcases malloc_granted h lt with ⟨p, s', run, granted⟩ | run
      · refine ⟨some p, s', ?_, granted.outcome (c := .realloc none size) (keeps _) nofun nofun⟩
        simp only [Call.perform, Heap.realloc, if_neg zero]
        exact run_bind_ok run _
      · refine stay (keeps none) ?_
        simp only [Call.perform, Heap.realloc, if_neg zero]
        exact run_bind_ok run _
    | some old =>
      obtain ⟨g, hg⟩ := Option.ne_none_iff_exists'.mp (owned old rfl)
      by_cases zero : size = 0
      · have released : (Call.realloc (some old) size).released none = some old := by
          rw [Call.released, if_pos (.inl zero)]
        refine give_outcome h released hg ?_
        simp only [Call.perform, Heap.realloc, if_pos zero]
      · exact realloc_outcome h hg lt zero

inductive Action where
  | call (c : Call)
  | write (b : Nat) (ram : Nat → UInt8)
  | other (m : Mem)

/-- The number of bytes of a block that can be used. -/
def Usable (s : Arenas) (b u : Nat) : Prop := (blockSize b).run s = (.ok u, s)

def heapPages (live : Ledger) : Set Page :=
  {c | ∃ b g, live b = some g ∧ (c = (false, arenaOf b) ∨ c ∈ g.took)}

/-- Others leave the descriptors and the pages of the heap alone. -/
structure Elsewhere (descs : Nat) (w : World) (m : Mem) : Prop where
  base : (m.pool false).base = (w.arenas.pool false).base
  used : heapPages w.live ⊆ usedPages m
  table : ∀ x, descs ≤ x → x < descs + sizeofDesc * 10 → m.ram x = w.arenas.ram x
  bytes : ∀ c ∈ heapPages w.live, ∀ x, c.2 ≤ x → x < c.2 + pgsize → m.ram x = w.arenas.ram x

def Action.Proper (descs : Nat) (w : World) : Action → Prop
  | .call c => c.Proper w.live
  | .write b ram => w.live b ≠ none ∧ ∀ u, Usable w.arenas b u →
    ∀ x, x < b ∨ b + u ≤ x → ram x = w.arenas.ram x
  | .other m => Elsewhere descs w m

/-- A call that does not return has no next state. -/
def step (w : World) : Action → Option World
  | .call c =>
    match c.perform.run w.arenas with
    | (.ok r, s) => some (w.after c r s)
    | (.error _, _) => none
  | .write _ ram => some { w with arenas := w.arenas.withRam ram }
  | .other m => some { w with arenas := { w.arenas with toMem := m } }

def start (descs : Nat) (m : Mem) : World := ⟨((mallocInit descs).run ⟨m, []⟩).2, fun _ => none⟩

theorem other_spec {m : Mem} (h : Book descs w.arenas w.live kind cnt free)
    (elsewhere : Elsewhere descs w m) :
    Book descs { w.arenas with toMem := m } w.live kind cnt free := by
  have pages : ∀ a k, kind a = some k → arenaPages a k.pages ⊆ heapPages w.live := by
    intro a k hk
    cases k with
    | small d =>
      obtain ⟨i, lt, used⟩ := h.busy a d hk
      obtain ⟨g, hg⟩ := Option.ne_none_iff_exists'.mp used
      rw [Kind.pages, arenaPages_one, Set.singleton_subset_iff]
      refine ⟨_, g, hg, .inl ?_⟩
      rw [arenaOf, (h.held.offset hk lt).2]
    | big n =>
      obtain ⟨g, hg⟩ := Option.ne_none_iff_exists'.mp (h.big a n hk)
      have inside : (Obj.payload a n).In descs kind := hk
      have hosts : Hosts (.payload a n) g := h.hosts inside hg
      exact fun c mem => ⟨_, g, hg, .inr (hosts.2.2 ▸ mem)⟩
  have agree : Touches descs kind (fun _ => False) w.arenas.ram m.ram := by
    intro o ho _ x low high
    cases arena : o.arena with
    | none =>
      cases o with
      | desc d =>
        have addr := table_addr (ho : d ∈ table descs)
        simp only [Obj.low, Obj.high, sizeofDesc] at low high
        exact elsewhere.table x (by omega) (by simp only [sizeofDesc]; omega)
      | header | block | payload => cases arena
    | some a =>
      obtain ⟨k, hk⟩ := ho.arena arena
      have within := h.held.shape.within ho arena hk
      have page : (false, a + pgsize * ((x - a) / pgsize)) ∈ heapPages w.live :=
        pages a k hk ⟨rfl, (x - a) / pgsize, by simp only [pgsize, pgbits]; omega, rfl⟩
      exact elsewhere.bytes _ page x (by simp only [pgsize, pgbits]; omega)
        (by simp only [pgsize, pgbits]; omega)
  have shape : Shape descs m kind :=
    { h.held.shape with
      below := by
        rw [elsewhere.base]
        exact h.held.shape.below
      used := fun a k q hk span => by
        have mem : (false, q) ∈ usedPages m := elsewhere.used (pages a k hk ⟨rfl, span⟩)
        exact mem }
  have rep := h.held.rep.frame agree (fun _ => id) (fun _ => id) fun _ _ _ => False.elim
  exact ⟨{ h.toEntries with held := ⟨h.held.inUse, shape, rep⟩ }, h.busy⟩

structure Sound (w : World) (fs : Desc → List Nat) : Prop where
  usable : ∀ b g, w.live b = some g → ∃ u, Usable w.arenas b u ∧ g.size ≤ u
  apart : ∀ b u b' u', w.live b ≠ none → w.live b' ≠ none → b ≠ b' → Usable w.arenas b u →
    Usable w.arenas b' u' → b + u ≤ b' ∨ b' + u' ≤ b
  headers : ∀ b u b', w.live b ≠ none → w.live b' ≠ none → Usable w.arenas b u →
    arenaOf b' + sizeofArena ≤ b ∨ b + u ≤ arenaOf b'
  lists : ∀ d ∈ w.arenas.descs, Seg w.arenas.ram d.head (fs d) d.tail ∧ (fs d).Nodup
  listed : ∀ d ∈ w.arenas.descs, ∀ e ∈ fs d, ∀ b u, w.live b ≠ none → Usable w.arenas b u →
    b + u ≤ e ∨ e + d.blockSize ≤ b
  arenas : ∀ d ∈ w.arenas.descs, ∀ e ∈ fs d, ∃ b, w.live b ≠ none ∧ arenaOf b = arenaOf e ∧
    word w.arenas.ram (arenaOf e + 4) = d.addr
  count : ∀ b g, w.live b = some g → g.size ≤ 1024 → ∃ d ∈ w.arenas.descs,
    word w.arenas.ram (arenaOf b + 4) = d.addr ∧
    word w.arenas.ram (arenaOf b + 8) = (fs d).countP (arenaOf · = arenaOf b)

/-- What a call did, as its clients and the page allocator see it. -/
structure Effect (w : World) (c : Call) (r : Option Nat) (s' : Arenas) (fs' : Desc → List Nat) :
    Prop where
  kept : ∀ b u, w.live b ≠ none → c.released r ≠ some b → Usable w.arenas b u →
    Usable s' b u ∧ ∀ x < u, s'.ram (b + x) = w.arenas.ram (b + x)
  fresh : ∀ p, r = some p → w.live p = none
  nothing : c.released r = none → usedPages w.arenas.toMem ⊆ usedPages s'.toMem
  returned : ∀ b g, c.released r = some b → w.live b = some g →
    Returned (w.after c r s').live b g (usedPages w.arenas.toMem \ usedPages s'.toMem)
  gone : ∀ b, c.released r = some b → ¬Shared (w.after c r s').live b →
    ∀ d ∈ s'.descs, ∀ e ∈ fs' d, arenaOf e ≠ arenaOf b
  zero : ∀ a b p, c = .calloc a b → r = some p → ∀ x < c.size, s'.ram (p + x) = 0
  moved : ∀ old size p u, c = .realloc (some old) size → r = some p → Usable w.arenas old u →
    ∀ x < min u size.toNat, s'.ram (p + x) = w.arenas.ram (old + x)
  failed : r = none → c.released r = none → s' = w.arenas

section Sound

variable {w : World} (h : Book descs w.arenas w.live kind cnt free)
include h

theorem live_obj (used : w.live b ≠ none) : ∃ o g, w.live b = some g ∧ Obj.In descs kind o ∧
    o.low = b ∧ Hosts o g ∧ ∀ u, Usable w.arenas b u → b + u = o.high := by
  obtain ⟨g, hg⟩ := Option.ne_none_iff_exists'.mp used
  obtain ⟨o, inside, rfl, hosts⟩ := h.owner b g hg
  refine ⟨o, g, hg, inside, rfl, hosts, fun u usable => ?_⟩
  have extent := Shape.nonempty h.held.shape inside
  rw [Usable, h.blockSize inside hosts] at usable
  cases usable
  omega

theorem count_free {a : Nat} (hk : kind a = some (.small d)) :
    (free d).countP (arenaOf · = a) = (idle w.live a d).card := by
  have hd := h.held.shape.known a d hk
  have same : ((free d).filter (arenaOf · = a)).toFinset = (idle w.live a d).image (block a d) := by
    ext e
    rw [List.mem_toFinset, List.mem_filter, Finset.mem_image]
    constructor
    · rintro ⟨mem, arena⟩
      obtain ⟨a', i, hk', lt, rfl⟩ := h.held.rep.elems d hd e mem
      have place : arenaOf (block a' d i) = a' := (h.held.offset hk' lt).2
      rw [place, decide_eq_true_iff] at arena
      subst arena
      exact ⟨i, mem_idle.mpr ⟨lt, (h.listed a' d i hk' lt).mp mem⟩, rfl⟩
    · rintro ⟨i, mem, rfl⟩
      obtain ⟨lt, spare⟩ := mem_idle.mp mem
      exact ⟨(h.listed a d i hk lt).mpr spare, decide_eq_true (h.held.offset hk lt).2⟩
  rw [List.countP_eq_length_filter,
    ← List.toFinset_card_of_nodup ((h.held.rep.nodup d hd).filter _), same]
  exact Finset.card_image_of_injective _ fun i j => block_injective hd

theorem sound_of_book : Sound w free := by
  have descsEq := h.held.inUse
  refine ⟨fun b g hg => ?_, fun b u b' u' used used' ne usable usable' => ?_,
    fun b u b' used used' usable => ?_, fun d hd => ?_, fun d hd e mem b u used usable => ?_,
    fun d hd e mem => ?_, fun b g hg small => ?_⟩
  · obtain ⟨o, inside, rfl, hosts⟩ := h.owner b g hg
    exact ⟨_, h.blockSize inside hosts, size_le hosts⟩
  · obtain ⟨o, g, -, inside, rfl, hosts, extent⟩ := live_obj h used
    obtain ⟨o', g', -, inside', rfl, hosts', extent'⟩ := live_obj h used'
    rw [extent u usable, extent' u' usable']
    exact h.held.shape.disjoint inside inside' fun e => ne (by rw [e])
  · obtain ⟨o, g, -, inside, rfl, hosts, extent⟩ := live_obj h used
    obtain ⟨o', g', -, inside', rfl, hosts', -⟩ := live_obj h used'
    obtain ⟨k, hk⟩ := inside'.arena (h.arenaOf_low inside' hosts')
    have header : (Obj.header (arenaOf o'.low)).In descs kind := by
      simp [Obj.In, hk]
    rw [extent u usable]
    exact (h.held.shape.disjoint header inside fun e => by rw [← e] at hosts; exact hosts)
  · rw [descsEq] at hd
    exact ⟨h.held.rep.list d hd, h.held.rep.nodup d hd⟩
  · rw [descsEq] at hd
    obtain ⟨o, g, hg, inside, rfl, hosts, extent⟩ := live_obj h used
    obtain ⟨a, i, hk, lt, rfl⟩ := h.held.rep.elems d hd e mem
    have inside' : (Obj.block a d i).In descs kind := ⟨hk, lt⟩
    rw [extent u usable]
    refine h.held.shape.disjoint inside inside' fun e => used ?_
    rw [e]
    exact (h.listed a d i hk lt).mp mem
  · rw [descsEq] at hd
    obtain ⟨a, i, hk, lt, rfl⟩ := h.held.rep.elems d hd e mem
    obtain ⟨j, less, used⟩ := h.busy a d hk
    have place : arenaOf (block a d i) = a := (h.held.offset hk lt).2
    refine ⟨block a d j, used, ?_, ?_⟩
    · rw [place]
      exact (h.held.offset hk less).2
    · rw [place]
      exact h.held.rep.small a d hk
  · obtain ⟨o, inside, rfl, hosts⟩ := h.owner b g hg
    cases o with
    | desc | header => exact hosts.elim
    | block a d i =>
      obtain ⟨hk, lt⟩ := inside
      have place : arenaOf (block a d i) = a := (h.held.offset hk lt).2
      simp only [Obj.low, place]
      refine ⟨d, by rw [descsEq]; exact h.held.shape.known a d hk, h.held.rep.small a d hk, ?_⟩
      rw [count_free h hk, h.held.rep.count a (by simp [hk]), h.count a d hk]
    | payload a n =>
      have large := hosts.1
      omega

theorem effect_of_outcome {r : Option Nat} {kind' : Nat → Option Kind} {cnt' : Nat → Nat}
    {free' : Desc → List Nat} (proper : c.Proper w.live)
    (h' : Book descs s' (w.after c r s').live kind' cnt' free')
    (outcome : Outcome descs w kind kind' c r s') : Effect w c r s' free' where
  kept b u used off usable := by
    obtain ⟨o, g, hg, inside, rfl, hosts, extent⟩ := live_obj h used
    obtain ⟨inside', agree⟩ := outcome.kept o inside used off
    have size := extent u usable
    have same : u = o.high - o.low := by omega
    refine ⟨?_, fun x lt => agree _ (by omega) (by omega)⟩
    rw [same]
    exact h'.blockSize inside' hosts
  fresh := outcome.fresh
  nothing := outcome.nothing
  returned := outcome.returned
  gone b released alone d hd e mem same := by
    rw [h'.held.inUse] at hd
    obtain ⟨a, i, hk, lt, rfl⟩ := h'.held.rep.elems d hd e mem
    have place : arenaOf (block a d i) = a := (h'.held.offset hk lt).2
    have none := outcome.gone b released alone
    rw [← same, place, hk] at none
    cases none
  zero := outcome.zero
  moved old size p u e e' usable x lt := by
    subst e
    obtain ⟨o, g, hg, inside, rfl, hosts, extent⟩ := live_obj h (proper.2 old rfl)
    have same := extent u usable
    exact outcome.moved o size p rfl e' inside x (by omega)
  failed := outcome.failed

end Sound

/-- The heap is laid out as some book says. -/
def Kempt (descs : Nat) (w : World) : Prop :=
  ∃ kind cnt free, Book descs w.arenas w.live kind cnt free

theorem Returns.kempt {w' : World} (h : Returns descs w kind c)
    (taken : step w (.call c) = some w') : Kempt descs w' := by
  obtain ⟨r, s', run, kind', cnt', free', book', -⟩ := h
  rw [step, run] at taken
  cases taken
  exact ⟨kind', cnt', free', book'⟩

theorem book_step {w' : World} {action : Action} (h : Kempt descs w)
    (proper : action.Proper descs w) (taken : step w action = some w') : Kempt descs w' := by
  obtain ⟨kind, cnt, free, book⟩ := h
  cases action with
  | call c => exact (call_outcome book proper).kempt taken
  | write b ram =>
    obtain ⟨used, same⟩ := proper
    obtain ⟨o, g, hg, inside, rfl, hosts, extent⟩ := live_obj book used
    have usable : Usable w.arenas o.low (o.high - o.low) := book.blockSize inside hosts
    have size := extent _ usable
    cases taken
    exact ⟨kind, cnt, free, (write_spec book inside used fun x off =>
      same _ usable x (by omega)).1⟩
  | other m =>
    cases taken
    exact ⟨kind, cnt, free, other_spec book proper⟩

theorem start_kempt {m : Mem} (above : physBase.toNat ≤ descs)
    (below : descs + sizeofDesc * 10 ≤ m.kernelPool.base) :
    ((mallocInit descs).run ⟨m, []⟩).1 = .ok () ∧ Kempt descs (start descs m) := by
  obtain ⟨s, init, book⟩ := mallocInit_spec above below
  rw [start, init]
  exact ⟨rfl, _, _, _, book⟩

/-- In every run no call fails an assertion, and the heap is in order. -/
theorem heap_sound {m : Mem} {w : World} (above : physBase.toNat ≤ descs)
    (below : descs + sizeofDesc * 10 ≤ m.kernelPool.base)
    (reach : Reachable (start descs m) step (fun w a => a.Proper descs w) w) :
    ((mallocInit descs).run ⟨m, []⟩).1 = .ok () ∧
    ∃ fs, Sound w fs ∧ ∀ c : Call, c.Proper w.live → ∃ r s' fs',
      c.perform.run w.arenas = (.ok r, s') ∧ Sound (w.after c r s') fs' ∧ Effect w c r s' fs' := by
  obtain ⟨init, base⟩ := start_kempt above below
  obtain ⟨kind, cnt, free, book⟩ := reach.invariant base fun _ _ _ => book_step
  refine ⟨init, free, sound_of_book book, fun c proper => ?_⟩
  obtain ⟨r, s', run, kind', cnt', free', book', outcome⟩ := call_outcome book proper
  exact ⟨r, s', free', run, sound_of_book book', effect_of_outcome book proper book' outcome⟩

def pools : Mem where
  kernelPool := ⟨⟨4, [0], rfl, by decide⟩, 0xc0100000, 4, rfl, by decide, by decide⟩
  userPool := ⟨⟨2, [0], rfl, by decide⟩, 0xc0104000, 2, rfl, by decide, by decide⟩
  initRamPages := 0x106
  ram _ := 0xcc
  apart := by decide
  room := by decide
  fits := by decide

theorem heap_sound_pools : ∃ w, w.live 0xc010000c ≠ none ∧ ∃ fs, Sound w fs := by
  have run : ((Call.malloc 1000).perform.run (start 0xc0002000 pools).arenas).1 =
      .ok (some 0xc010000c) := by rfl
  generalize result : (Call.malloc 1000).perform.run (start 0xc0002000 pools).arenas = p at run
  obtain ⟨r, s⟩ := p
  have taken : step (start 0xc0002000 pools) (.call (.malloc 1000)) =
      some ((start 0xc0002000 pools).after (.malloc 1000) (some 0xc010000c) s) := by
    simp only [step, result]
    rw [show r = .ok (some 0xc010000c) from run]
  have proper : Action.Proper 0xc0002000 (start 0xc0002000 pools) (.call (.malloc 1000)) :=
    ⟨by decide, nofun⟩
  have reach : Reachable (start 0xc0002000 pools) step (fun w a => a.Proper 0xc0002000 w) _ :=
    .next .start proper taken
  obtain ⟨-, fs, sound, -⟩ := heap_sound (by decide) (by decide) reach
  exact ⟨_, by simp [World.after, enter], fs, sound⟩

end Pintos.HeapRuns
