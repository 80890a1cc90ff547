import Pintos.FileModel
import Pintos.Format

/-! The file system refines its abstract model. The sector of an inode stands for a
file object as long as the inode is live; when it is given back and used again it
stands for another object. -/

namespace Pintos.Refinement
open Resumption ByteStore Bitmap Disk InodeIO Inode Directory Filesys Volume Calls Function
open CallCreate CallFiles CallOpen CallClose CallRemove Format FileModel

variable {c : Client} {a : Files} {f0 p0 : Nat} {obj : Nat → Nat}

def roomFor (s : FS) : Call → Bool
  | .filesysCreate _ size => decide (Room s size)
  | _ => true

def rooms (c : Client) : List Call → List Bool
  | [] => []
  | op :: ops => roomFor c.fs op ::
    match c.call op with
    | some (_, c) => rooms c ops
    | none => []

def IsFile (i : Nat) : Prop := i ≠ freeMapSector ∧ i ≠ rootDirSector

/-- What an open file is in the abstract model. -/
def seen (s : FS) (obj : Nat → Nat) (h : Option Nat) : Option (Nat × Nat) :=
  h.bind fun f => (view s f).map fun v => (obj v.1, v.2)

structure Sim (c : Client) (a : Files) (f₀ p₀ : Nat) (obj : Nat → Nat) : Prop where
  inv : Inv c.fs c.handles f₀ p₀
  names : ∀ name, a.names name = (find (rootDir c.fs.device) name).map obj
  handles : a.handles = c.handles.map (seen c.fs obj)
  objects : ∀ i ∈ Live c.fs, IsFile i → a.objects[obj i]? = some (content c.fs.device i)
  inj : ∀ i ∈ Live c.fs, ∀ j ∈ Live c.fs, IsFile i → IsFile j → obj i = obj j → i = j

section Handles

variable {s s' : FS} {hs : List (Option Nat)} {k f : Nat}

theorem seen_congr {h : Option Nat} (same : ∀ g, h = some g → view s' g = view s g) :
    seen s' obj h = seen s obj h := by
  cases h with
  | none => rfl
  | some g => simp [seen, same g rfl]

theorem map_seen_congr (same : ∀ g, some g ∈ hs → view s' g = view s g) :
    hs.map (seen s' obj) = hs.map (seen s obj) :=
  List.map_congr_left fun _ mem => seen_congr fun g e => same g (e ▸ mem)

theorem map_seen_set (once : OnceEach hs) (hk : hs[k]? = some (some f))
    (others : ∀ g, g ≠ f → view s' g = view s g) :
    hs.map (seen s' obj) = (hs.map (seen s obj)).set k (seen s' obj (some f)) := by
  apply List.ext_getElem?
  intro j
  rw [List.getElem?_set, List.getElem?_map]
  by_cases here : k = j
  · subst here
    have lt := (List.getElem?_eq_some_iff.mp hk).1
    rw [if_pos rfl, List.length_map, if_pos lt, hk]
    rfl
  rw [if_neg here, List.getElem?_map]
  cases hj : hs[j]? with
  | none => rfl
  | some h =>
    refine congrArg some (seen_congr fun g e => others g ?_)
    rintro rfl
    exact here (once k j g hk (e ▸ hj))

theorem set_none_eq (absent : (hs[k]?).join = none) : hs.set k none = hs := by
  apply List.ext_getElem?
  intro j
  rw [List.getElem?_set]
  split_ifs with here lt
  · subst here
    cases hk : hs[k]? with
    | none => simp [lt] at hk
    | some h =>
      rw [hk] at absent
      rw [show h = none from absent]
  · subst here
    simp [lt]
  · rfl

end Handles

theorem Sim.handle_eq (sim : Sim c a f0 p0 obj) (h : Nat) :
    a.handle h = (c.handle h).bind fun f => (view c.fs f).map fun v => (obj v.1, v.2) := by
  rw [Files.handle, sim.handles, List.getElem?_map, Client.handle]
  cases c.handles[h]? with
  | none => rfl
  | some x => rfl

theorem Sim.handle_cases (sim : Sim c a f0 p0 obj)
    (h : Nat) : (c.handle h = none ∧ a.handle h = none) ∨ ∃ f file x, c.handle h = some f ∧
    c.handles[h]? = some (some f) ∧ Opened c.fs f p0 file x ∧ IsFile x.sector ∧
    a.handle h = some (obj x.sector, file.pos.toNat) ∧
    a.objects[obj x.sector]? = some (content c.fs.device x.sector) := by
  have eq := sim.handle_eq h
  cases here : c.handle h with
  | none =>
    rw [here] at eq
    exact .inl ⟨rfl, eq⟩
  | some f =>
    have entry : c.handles[h]? = some (some f) := Option.join_eq_some_iff.mp here
    obtain ⟨file, x, opened⟩ := Inv.opened sim.inv (List.mem_of_getElem? entry)
    have isFile := Inv.isFile sim.inv opened.user opened.inode
    refine .inr ⟨f, file, x, rfl, entry, opened, isFile, ?_, sim.objects _ opened.live isFile⟩
    rw [eq, here, Option.bind_some, opened.view]
    rfl

theorem Sim.lt (sim : Sim c a f0 p0 obj) {i : Nat} (live : i ∈ Live c.fs) (file : IsFile i) :
    obj i < a.objects.length :=
  (List.getElem?_eq_some_iff.mp (sim.objects i live file)).1

theorem Sim.keep (sim : Sim c a f0 p0 obj) {s' : FS} {hs' : List (Option Nat)}
    {handles : List (Option (Nat × Nat))} (inv : Inv s' hs' f0 p0)
    (dir : rootDir s'.device = rootDir c.fs.device) (live : ∀ j ∈ Live s', j ∈ Live c.fs)
    (content : ∀ j ∈ Live s', IsFile j → content s'.device j = content c.fs.device j)
    (same : handles = hs'.map (seen s' obj)) :
    Sim ⟨s', hs'⟩ { a with handles := handles } f0 p0 obj where
  inv := inv
  names name := by
    rw [dir]
    exact sim.names name
  handles := same
  objects i hi file := by
    rw [content i hi file]
    exact sim.objects i (live i hi) file
  inj i hi j hj := sim.inj i (live i hi) j (live j hj)

/-- A call is answered as in the model, and the states stay related. -/
def Matched (c : Client) (a : Files) (f₀ p₀ : Nat) (op : Call) : Prop :=
  ∃ c' obj', c.call op = some ((a.call (roomFor c.fs op) op).1, c') ∧
    Sim c' (a.call (roomFor c.fs op) op).2 f₀ p₀ obj'

theorem live_congr {s s' : FS} (dir : rootDir s'.device = rootDir s.device)
    (inodes : s'.inodes = s.inodes) : Live s' = Live s := by
  ext i
  rw [mem_live, mem_live, dir, inodes]

theorem view_congr {s s' : FS} (inodes : s'.inodes = s.inodes) (files : s'.files = s.files)
    (f : Nat) : view s' f = view s f := by
  rw [view, view, files, inodes]

section Names

variable (sim : Sim c a f0 p0 obj) (name : CString)
include sim

theorem Sim.named_file {i : Nat} (found : find (rootDir c.fs.device) name = some i) :
    i ∈ Live c.fs ∧ IsFile i := by
  have named := sim.inv.names.named_of_find found
  exact ⟨named_live named, sim.inv.files i named⟩

theorem Sim.create {s' : FS} {i size : Nat} (inv : Inv s' c.handles f0 p0) (kept : Kept c.fs s')
    (new : i ∉ Live c.fs) (data : content s'.device i = List.replicate size 0)
    (found : ∀ other, find (rootDir s'.device) other =
      if other.val = name.val then some i else find (rootDir c.fs.device) other) :
    Sim ⟨s', c.handles⟩ { a with
      names := update a.names name (some a.objects.length)
      objects := a.objects ++ [List.replicate size 0] } f0 p0
      (update obj i a.objects.length) := by
  have other : ∀ j ∈ Live c.fs, update obj i a.objects.length j = obj j := by
    intro j hj
    rw [update_of_ne]
    rintro rfl
    exact new hj
  have live : ∀ j ∈ Live s', j = i ∨ j ∈ Live c.fs := by
    intro j hj
    rcases mem_live.mp hj with e | e | named | ⟨p, x, hx, e⟩
    · exact .inr (.inl e)
    · exact .inr (.inr (.inl e))
    · obtain ⟨n, hn⟩ := inv.names.named_iff.mp named
      rw [found] at hn
      split_ifs at hn with same
      · exact .inl (Option.some.inj hn).symm
      · exact .inr (sim.named_file n hn).1
    · rw [kept.inodes] at hx
      exact .inr (e ▸ open_live hx)
  refine ⟨inv, fun n => ?_, ?_, fun j hj file => ?_, fun j hj k hk fileJ fileK e => ?_⟩
  · change update a.names name (some a.objects.length) n = _
    rw [found]
    by_cases same : n.val = name.val
    · obtain rfl : n = name := Subtype.ext same
      simp
    · rw [if_neg same, update_of_ne (fun e => same (by rw [e])), sim.names]
      cases hn : find (rootDir c.fs.device) n with
      | none => rfl
      | some j => exact congrArg some (other j (sim.named_file n hn).1).symm
  · rw [show Files.handles _ = a.handles from rfl, sim.handles]
    refine List.map_congr_left fun h mem => ?_
    cases h with
    | none => rfl
    | some f =>
      obtain ⟨file, x, opened⟩ := Inv.opened sim.inv mem
      simp only [seen, Option.bind_some, view_congr kept.inodes kept.files, opened.view,
        Option.map_some, other x.sector opened.live]
  · change (a.objects ++ [List.replicate size 0])[update obj i a.objects.length j]? = _
    rcases live j hj with rfl | old
    · rw [update_self, List.getElem?_concat_length]
      exact congrArg some data.symm
    · rw [other j old, List.getElem?_append_left (sim.lt old file), kept.content j old file.1 file.2]
      exact sim.objects j old file
  · rcases live j hj with rfl | oldJ <;> rcases live k hk with rfl | oldK
    · rfl
    · rw [update_self, other k oldK] at e
      have := sim.lt oldK fileK
      omega
    · rw [update_self, other j oldJ] at e
      have := sim.lt oldJ fileJ
      omega
    · rw [other j oldJ, other k oldK] at e
      exact sim.inj j oldJ k oldK fileJ fileK e

theorem create_matched (size : Size) : Matched c a f0 p0 (.filesysCreate name size) := by
  obtain ⟨ok, s', run, inv, kept, iff, fails, succeeds⟩ := create_spec sim.inv name size.isLt
  have call : c.call (.filesysCreate name size) = some (.done ok, ⟨s', c.handles⟩) := by
    rw [Client.call, run]
    rfl
  have cond : (ValidName name ∧ a.names name = none ∧ decide (Room c.fs size) = true) ↔
      ok = true := by
    rw [iff, sim.names, Option.map_eq_none_iff, decide_eq_true_eq]
  unfold Matched
  simp only [roomFor, Files.call, call, cond]
  cases ok with
  | true =>
    obtain ⟨i, new, data, found⟩ := succeeds rfl
    exact ⟨_, _, rfl, sim.create name inv kept new data found⟩
  | false =>
    have dir := fails rfl
    have live := live_congr dir kept.inodes
    refine ⟨_, obj, rfl, sim.keep inv dir (fun j hj => live ▸ hj) (fun j hj file => ?_) ?_⟩
    · exact kept.content j (live ▸ hj) file.1 file.2
    · rw [sim.handles]
      exact (map_seen_congr fun g _ => view_congr kept.inodes kept.files g).symm

theorem open_matched : Matched c a f0 p0 (.filesysOpen name) := by
  unfold Matched
  simp only [Files.call, Client.call, sim.names name]
  rcases open_spec sim.inv name with
    ⟨absent, run⟩ | ⟨i, f, s', found, run, inv, device, live, new, old⟩
  · rw [absent, run]
    refine ⟨_, obj, rfl, sim.keep sim.inv.bump rfl (fun j hj => hj) (fun j _ _ => rfl) ?_⟩
    exact sim.handles
  rw [found, run]
  refine ⟨⟨s', c.handles ++ [some f]⟩, obj, ?_, sim.keep inv (by rw [device])
    (fun j hj => live ▸ hj) (fun j _ _ => by rw [device]) ?_⟩
  · simp [sim.handles]
  · rw [List.map_append, map_seen_congr old, sim.handles]
    simp [seen, new]

theorem remove_matched : Matched c a f0 p0 (.filesysRemove name) := by
  unfold Matched
  simp only [Files.call, Client.call, sim.names name]
  rcases remove_spec sim.inv name with ⟨absent, run⟩ | ⟨there, s', run, inv, removed⟩
  · rw [absent, run]
    refine ⟨_, obj, rfl, sim.keep sim.inv.bump rfl (fun j hj => hj) (fun j _ _ => rfl) ?_⟩
    exact sim.handles
  obtain ⟨i, found⟩ := Option.ne_none_iff_exists'.mp there
  rw [found, run]
  refine ⟨_, obj, rfl, inv, fun n => ?_, ?_, fun j hj file => ?_,
    fun j hj k hk => sim.inj j (removed.live j hj) k (removed.live k hk)⟩
  · change update a.names name none n = _
    rw [removed.find]
    by_cases same : n.val = name.val
    · obtain rfl : n = name := Subtype.ext same
      simp
    · rw [if_neg same, update_of_ne (fun e => same (by rw [e])), sim.names]
  · exact sim.handles.trans (map_seen_congr removed.view).symm
  · rw [removed.content j hj file.1 file.2]
    exact sim.objects j (removed.live j hj) file

end Names

section OpenFiles

variable {h f : Nat} {file : File} {x : Inode}

theorem Sim.move (sim : Sim c a f0 p0 obj) (entry : c.handles[h]? = some (some f))
    (opened : Opened c.fs f p0 file x) (pos : Int) (nonneg : 0 ≤ pos) :
    Sim ⟨FS.setFile c.fs f (some { file with pos := pos }), c.handles⟩
      (a.move h (obj x.sector) pos.toNat) f0 p0 obj := by
  refine sim.keep (Inv.setPos sim.inv (List.mem_of_getElem? entry) opened nonneg) rfl
    (fun j hj => hj) (fun j _ _ => rfl) ?_
  have others : ∀ g, g ≠ f →
      view (FS.setFile c.fs f (some { file with pos := pos })) g = view c.fs g := by
    intro g ne
    simp [view, FS.setFile, ne]
  rw [map_seen_set sim.inv.table.distinct entry others, sim.handles]
  simp [seen, view, FS.setFile, opened.inode]

theorem Sim.write (sim : Sim c a f0 p0 obj) (opened : Opened c.fs f p0 file x)
    (isFile : IsFile x.sector) (pos : Nat) (bs : List UInt8) :
    Sim ⟨{ c.fs with device := writeFile c.fs.device x.sector pos bs }, c.handles⟩ { a with
        objects := a.objects.set (obj x.sector) (overlay (content c.fs.device x.sector) pos
          (bs.take (min bs.length ((content c.fs.device x.sector).length - pos)))) }
      f0 p0 obj := by
  have inv := Inv.writeData sim.inv isFile opened.live pos bs
  have only := writeFile_onlyData sim.inv opened.live pos bs
  have dir := sim.inv.volume.rootDir_eq only isFile.2
  have live : Live { c.fs with device := writeFile c.fs.device x.sector pos bs } = Live c.fs :=
    live_congr dir rfl
  refine ⟨inv, fun n => ?_, sim.handles, fun j hj fileJ => ?_, fun j hj k hk => ?_⟩
  · change a.names n = (find (rootDir (writeFile _ _ _ _)) n).map obj
    rw [dir]
    exact sim.names n
  · rw [live] at hj
    by_cases here : j = x.sector
    · subst here
      change (a.objects.set _ _)[obj x.sector]? = some (content (writeFile _ _ _ _) _)
      rw [List.getElem?_set_self (sim.lt hj fileJ), content_writeFile sim.inv hj, Nat.min_comm,
        ← List.take_take, List.take_length]
    · have ne : obj x.sector ≠ obj j := fun e => here (sim.inj _ opened.live j hj isFile fileJ e).symm
      change (a.objects.set _ _)[obj j]? = some (content (writeFile _ _ _ _) _)
      rw [List.getElem?_set_ne ne, sim.inv.volume.content_eq only hj here]
      exact sim.objects j hj fileJ
  · rw [live] at hj hk
    exact sim.inj j hj k hk

theorem data_of_objects {o : Nat} {bs : List UInt8} (object : a.objects[o]? = some bs) :
    a.data o = bs := by
  rw [Files.data, List.getD_eq_getElem?_getD, object]
  rfl

theorem on_none {α : Type} (none : c.handle h = none) (code : Nat → Code α) (answer : α → Result) :
    c.on h code answer = some (.noHandle, c) := by
  rw [Client.on, none]

theorem on_some {α : Type} {s' : FS} {r : α} (here : c.handle h = some f) {code : Nat → Code α}
    (answer : α → Result) (run : Prog.run (code f) c.fs = some (r, s')) :
    c.on h code answer = some (answer r, ⟨s', c.handles⟩) := by
  rw [Client.on, here]
  simp only [run]
  rfl

variable (sim : Sim c a f0 p0 obj) (h)
include sim

theorem read_matched (size : Size) : Matched c a f0 p0 (.fileRead h size) := by
  unfold Matched
  simp only [Files.call, Client.call, Files.on]
  rcases sim.handle_cases h with ⟨none, none'⟩ | ⟨f, file, x, here, entry, opened, -, hand, object⟩
  · rw [none', on_none none]
    exact ⟨c, obj, rfl, sim⟩
  have pos := opened.pos
  rw [hand, on_some here _ (read_spec opened size)]
  simp only [data_of_objects object]
  refine ⟨_, obj, rfl, ?_⟩
  have move := sim.move entry opened (file.pos + (((content c.fs.device x.sector).drop
    file.pos.toNat).take size).length) (by omega)
  rwa [Int.toNat_add pos (by omega), Int.toNat_natCast] at move

theorem write_matched (buffer : { bs : List UInt8 // bs.length < 2 ^ 31 }) :
    Matched c a f0 p0 (.fileWrite h buffer) := by
  unfold Matched
  simp only [Files.call, Client.call, Files.on]
  rcases sim.handle_cases h with
    ⟨none, none'⟩ | ⟨f, file, x, here, entry, opened, isFile, hand, object⟩
  · rw [none', on_none none]
    exact ⟨c, obj, rfl, sim⟩
  have pos := opened.pos
  rw [hand, on_some here _ (write_spec opened buffer.val)]
  simp only [data_of_objects object]
  refine ⟨_, obj, rfl, ?_⟩
  have written := sim.write opened isFile file.pos.toNat buffer.val
  have again : Opened { c.fs with
      device := writeFile c.fs.device x.sector file.pos.toNat buffer.val } f p0 file x := by
    obtain ⟨file', x', opened'⟩ := Inv.opened written.inv (List.mem_of_getElem? entry)
    obtain rfl : file' = file := Option.some.inj (opened'.entry.symm.trans opened.entry)
    obtain rfl : x' = x := Option.some.inj (opened'.inode.symm.trans opened.inode)
    exact opened'
  have move := written.move entry again (file.pos +
    (writeCount c.fs.device x.sector file.pos.toNat buffer.val : Nat)) (by omega)
  rw [Int.toNat_add pos (by omega), Int.toNat_natCast] at move
  exact move

theorem seek_matched (newPos : Size) : Matched c a f0 p0 (.fileSeek h newPos) := by
  unfold Matched
  simp only [Files.call, Client.call, Files.on]
  rcases sim.handle_cases h with ⟨none, none'⟩ | ⟨f, file, x, here, entry, opened, -, hand, -⟩
  · rw [none', on_none none]
    exact ⟨c, obj, rfl, sim⟩
  · rw [hand, on_some here _ (seek_spec opened newPos)]
    exact ⟨_, obj, rfl, sim.move entry opened newPos (Int.natCast_nonneg _)⟩

theorem tell_matched : Matched c a f0 p0 (.fileTell h) := by
  unfold Matched
  simp only [Files.call, Client.call, Files.on]
  rcases sim.handle_cases h with ⟨none, none'⟩ | ⟨f, file, x, here, -, opened, -, hand, -⟩
  · rw [none', on_none none]
    exact ⟨c, obj, rfl, sim⟩
  · rw [hand, on_some here _ (tell_spec opened)]
    exact ⟨c, obj, by simp only [Int.toNat_of_nonneg opened.pos], sim⟩

theorem length_matched : Matched c a f0 p0 (.fileLength h) := by
  unfold Matched
  simp only [Files.call, Client.call, Files.on]
  rcases sim.handle_cases h with ⟨none, none'⟩ | ⟨f, file, x, here, -, opened, -, hand, object⟩
  · rw [none', on_none none]
    exact ⟨c, obj, rfl, sim⟩
  · rw [hand, on_some here _ (length_spec sim.inv opened)]
    exact ⟨c, obj, by simp only [data_of_objects object], sim⟩

theorem close_matched : Matched c a f0 p0 (.fileClose h) := by
  unfold Matched
  simp only [Files.call, Client.call, Files.on]
  rcases sim.handle_cases h with ⟨none, none'⟩ | ⟨f, file, x, here, entry, opened, -, hand, -⟩
  · rw [none', on_none none]
    refine ⟨⟨c.fs, c.handles.set h Option.none⟩, obj, rfl, ?_⟩
    rw [set_none_eq none]
    exact sim
  obtain ⟨s', run, inv, closed⟩ := close_spec sim.inv entry
  rw [hand, on_some here _ run]
  refine ⟨⟨s', c.handles.set h none⟩, obj, rfl, sim.keep inv closed.dir closed.live
    (fun j hj isFile => closed.content j hj isFile.1) ?_⟩
  rw [map_seen_congr closed.view, List.map_set, sim.handles]
  rfl

end OpenFiles

theorem call_matched (sim : Sim c a f0 p0 obj) (op : Call) : Matched c a f0 p0 op := by
  cases op with
  | filesysCreate name size => exact create_matched sim name size
  | filesysOpen name => exact open_matched sim name
  | filesysRemove name => exact remove_matched sim name
  | fileRead h size => exact read_matched h sim size
  | fileWrite h buffer => exact write_matched h sim buffer
  | fileSeek h newPos => exact seek_matched h sim newPos
  | fileTell h => exact tell_matched h sim
  | fileLength h => exact length_matched h sim
  | fileClose h => exact close_matched h sim

theorem calls_matched (ops : List Call) (sim : Sim c a f0 p0 obj) :
    ∃ c' obj', c.calls ops = some ((a.calls ops (rooms c ops)).1, c') ∧
      Sim c' (a.calls ops (rooms c ops)).2 f0 p0 obj' := by
  induction ops generalizing c a obj with
  | nil => exact ⟨c, obj, rfl, sim⟩
  | cons op ops ih =>
    obtain ⟨c', obj', call, sim'⟩ := call_matched sim op
    obtain ⟨c'', obj'', rest, sim''⟩ := ih sim'
    refine ⟨c'', obj'', ?_, ?_⟩
    · simp [Client.calls, call, rest, rooms, Files.calls]
    · simpa only [rooms, call, Files.calls] using sim''

theorem formatted_sim {d : Device} {junk : Nat → BitVec 32} {s : FS}
    (h : Prog.run (filesysInit true) (boot d junk) = some ((), s)) :
    Sim ⟨s, []⟩ Files.empty 3 2 id := by
  obtain ⟨inv, names, live⟩ := filesysInit_inv h
  refine ⟨inv, fun name => ?_, rfl, fun i hi file => ?_, fun i hi _ _ file => ?_⟩
  · rw [names name]
    rfl
  · rcases live i hi with e | e
    · exact absurd e file.1
    · exact absurd e file.2
  · rcases live i hi with e | e
    · exact absurd e file.1
    · exact absurd e file.2

/-- On a formatted device every sequence of calls is answered as by the abstract model,
where a creation also needs a free slot and a long enough run of free sectors. -/
theorem calls_refine_model {d : Device} {junk : Nat → BitVec 32} {s : FS}
    (h : Prog.run (filesysInit true) (boot d junk) = some ((), s)) (ops : List Call) :
    ∃ c, Client.calls ⟨s, []⟩ ops = some ((Files.empty.calls ops (rooms ⟨s, []⟩ ops)).1, c) := by
  obtain ⟨c, obj, run, -⟩ := calls_matched ops (formatted_sim h)
  exact ⟨c, run⟩

theorem calls_refine_model_blank : ∃ s c,
    Prog.run (filesysInit true) (boot blankDevice fun _ => 0) = some ((), s) ∧
      Client.calls ⟨s, []⟩ [.filesysCreate ⟨[97], by decide⟩ 600, .filesysOpen ⟨[97], by decide⟩,
        .filesysRemove ⟨[97], by decide⟩, .fileWrite 0 ⟨[1, 2, 3], by decide⟩, .fileSeek 0 1,
        .fileRead 0 4, .fileClose 0] =
      some ((Files.empty.calls [.filesysCreate ⟨[97], by decide⟩ 600,
        .filesysOpen ⟨[97], by decide⟩, .filesysRemove ⟨[97], by decide⟩,
        .fileWrite 0 ⟨[1, 2, 3], by decide⟩, .fileSeek 0 1, .fileRead 0 4, .fileClose 0]
        (rooms ⟨s, []⟩ [.filesysCreate ⟨[97], by decide⟩ 600, .filesysOpen ⟨[97], by decide⟩,
          .filesysRemove ⟨[97], by decide⟩, .fileWrite 0 ⟨[1, 2, 3], by decide⟩, .fileSeek 0 1,
          .fileRead 0 4, .fileClose 0])).1, c) := by
  obtain ⟨s, format⟩ := blankDevice_formats
  obtain ⟨c, run⟩ := calls_refine_model format [.filesysCreate ⟨[97], by decide⟩ 600,
    .filesysOpen ⟨[97], by decide⟩, .filesysRemove ⟨[97], by decide⟩,
    .fileWrite 0 ⟨[1, 2, 3], by decide⟩, .fileSeek 0 1, .fileRead 0 4, .fileClose 0]
  exact ⟨s, c, format, run⟩

end Pintos.Refinement
