import OperatingSystems.CowFork.Commit
import OperatingSystems.CowFork.FailedFork

/-! # The program and its arguments

When `exec` returns 0, the process has the segments of the file, unless the arguments overwrite them: nothing
keeps the stack pointer in the page of the stack.

* `Started`: the segments are intact, and the arguments and the frame are in the page of the stack.
* `exec_starts_iff`: what it takes is that the arguments fit into a page. -/

namespace OperatingSystems.CowFork.Processes

open Lib.WeakestPre Lib.Overlay ProcTable

/-! ### Valid executables -/

/-- The program headers of segments to load. -/
def loads (phs : List (Option Proghdr)) : List Proghdr := phs.filterMap (Option.filter (·.type = elfProgLoad))

def File.loads (ip : File) : List Proghdr := Processes.loads (headers ip ip.elf.phnum.toNat ip.elf.phoff)

/-- A segment that starts a page, below `USERTOP`, with its bytes in the file. -/
structure Proghdr.Valid (ip : File) (ph : Proghdr) : Prop where
  sizes : ph.filesz.toNat ≤ ph.memsz.toNat
  aligned : ph.va.toNat % 4096 = 0
  below : ph.va.toNat + ph.memsz.toNat ≤ usertop
  inFile : ph.offset.toNat + ph.filesz.toNat ≤ ip.data.length

/-- The segments do not overlap. -/
def Proghdr.Clear (a b : Proghdr) : Prop :=
  a.va.toNat + a.memsz.toNat ≤ b.va.toNat ∨ b.va.toNat + b.memsz.toNat ≤ a.va.toNat

instance : Std.Symm Proghdr.Clear := ⟨fun _ _ => Or.symm⟩

/-- **A valid executable**: the header and the program headers are in the file, and the segments are valid and do
not overlap. -/
structure File.Valid (ip : File) : Prop where
  elf : ip.IsElf
  table : none ∉ headers ip ip.elf.phnum.toNat ip.elf.phoff
  segments : ∀ ph ∈ ip.loads, ph.Valid ip
  apart : ip.loads.Pairwise Proghdr.Clear

/-! ### What the process finds -/

/-- What a segment reads as: the bytes of the file, and zeros. -/
def Proghdr.contents (ip : File) (ph : Proghdr) : Bytes :=
  ip.slice ph.offset.toNat ph.filesz.toNat ++ List.replicate (ph.memsz.toNat - ph.filesz.toNat) 0#8

/-- The list is in the last page of the process, which is for the stack. -/
def OnStack (q : Proc) (a : Word) (bytes : Bytes) : Prop :=
  q.sz.toNat ≤ a.toNat + 4096 ∧ a.toNat + bytes.length ≤ q.sz.toNat

/-- The frame of `main`: a fake return address, `argc`, `argv`, and the array of the pointers. -/
def mainFrame (sp : Word) (args : List Word) : Bytes :=
  (0xffffffff#32 :: BitVec.ofNat 32 args.length :: (sp + 12#32) :: (args ++ [0#32])).flatMap wordBytes

/-- **The process finds its program and its arguments**: the segments are intact, and the frame and the strings are
in the page of the stack. -/
def Started (m : Mem) (ip : File) (argv : List Bytes) (q : Proc) : Prop :=
  (∀ ph ∈ ip.loads, Shows m q.pgdir ph.va.toNat (ph.contents ip)) ∧
    ∃ args : List Word, OnStack q q.tf.esp (mainFrame q.tf.esp args) ∧
      Shows m q.pgdir q.tf.esp.toNat (mainFrame q.tf.esp args) ∧
      List.Forall₂ (fun a s => OnStack q a (s ++ [0#8]) ∧ Shows m q.pgdir a.toNat (s ++ [0#8])) args argv

/-- `exec` returns: 0 with the program and its arguments in place, or -1. -/
def Starts (L : Layout) (namei : Bytes → Option File) (p : Fin nproc) (path : Bytes) (ip : File) (argv : List Bytes)
    (s : State) : Prop :=
  ∃ r t, exec L namei p path argv s = .ok r t ∧ (r = -1 ∨ r = 0 ∧ Started t.mem ip argv (t.proc p))

variable {L : Layout} {N : Prop} {s t : State} {p : Fin nproc} {D K : Finset ℕ} {ip : File} {argv : List Bytes}

/-! ### The plan of a valid executable -/

theorem Proghdr.Valid.toNat_end {ph : Proghdr} (h : ph.Valid ip) :
    (ph.va + ph.memsz).toNat = ph.va.toNat + ph.memsz.toNat := by
  have hbelow := h.below
  unfold usertop at hbelow
  rw [BitVec.toNat_add]
  exact Nat.mod_eq_of_lt (by omega)

theorem loads_cons_of_eq {ph : Proghdr} {phs : List (Option Proghdr)} (h : ph.type = elfProgLoad) :
    loads (some ph :: phs) = ph :: loads phs := List.filterMap_cons_some (by simp [Option.filter, h])

theorem loads_cons_of_ne {ph : Proghdr} {phs : List (Option Proghdr)} (h : ph.type ≠ elfProgLoad) :
    loads (some ph :: phs) = loads phs := by
  simp [loads, h]

theorem Proghdr.Valid.inside {ph : Proghdr} (h : ph.Valid ip) (sz : ℕ) : (⟨ph, ph.grow sz⟩ : Segment).Inside ip := by
  have hend := h.toNat_end
  have hsizes := h.sizes
  have hgrow : (ph.va + ph.memsz).toNat ≤ ph.grow sz := le_max_right ..
  intro i hi _ _
  show ph.va.toNat + i < pgup (ph.grow sz) * 4096
  change i < ph.filesz.toNat at hi
  unfold pgup
  omega

/-- The plan loads the segments where they belong, and all of them if it has a size. -/
theorem plan_valid {phs : List (Option Proghdr)} (sz : ℕ) (hnone : none ∉ phs) (hval : ∀ ph ∈ loads phs, ph.Valid ip) :
    (∀ x ∈ (plan ip phs sz).segs, x.ph ∈ loads phs ∧ x.Inside ip) ∧ ∀ top, (plan ip phs sz).size = some top →
      (plan ip phs sz).segs.map Segment.ph = loads phs ∧ ∀ ph ∈ loads phs, ph.va.toNat + ph.memsz.toNat ≤ top := by
  induction phs generalizing sz with
  | nil => exact ⟨fun x hx => (by cases hx), fun top _ => ⟨rfl, fun x hx => (by cases hx)⟩⟩
  | cons o phs ih =>
    cases o with
    | none => exact absurd List.mem_cons_self hnone
    | some ph =>
      have hnone' : none ∉ phs := fun h => hnone (List.mem_cons_of_mem _ h)
      rw [plan_some]
      by_cases htype : ph.type = elfProgLoad
      · rw [loads_cons_of_eq htype] at hval ⊢
        have hph := hval ph List.mem_cons_self
        obtain ⟨hin, hall⟩ := ih (ph.grow sz) hnone' fun x hx => hval x (List.mem_cons_of_mem _ hx)
        have hfile : ph.InFile ip := .inr hph.inFile
        rw [if_neg (not_not.mpr htype), if_pos hfile]
        split_ifs with hbad
        · exact ⟨fun x hx => (by cases hx), fun top htop => (by cases htop)⟩
        · refine ⟨fun x hx => ?_, fun top htop => ?_⟩
          · rcases List.mem_cons.mp hx with rfl | hx
            · exact ⟨List.mem_cons_self, hph.inside sz⟩
            · exact (hin x hx).imp_left (List.mem_cons_of_mem _)
          · obtain ⟨hsegs, htops⟩ := hall top htop
            refine ⟨by rw [List.map_cons, hsegs], fun x hx => ?_⟩
            rcases List.mem_cons.mp hx with rfl | hx
            · rw [← hph.toNat_end]
              exact (le_max_right _ _).trans (le_of_plan htop)
            · exact htops x hx
      · rw [loads_cons_of_ne htype] at hval ⊢
        rw [if_pos htype]
        exact ih sz hnone' hval

namespace File.Valid

theorem inside (h : ip.Valid) (free : ℕ) : ip.plan.Inside ip free := fun x hx _ =>
  ((plan_valid 0 h.table h.segments).1 x hx).2

theorem aligned (h : ip.Valid) (free : ℕ) : ip.plan.Aligned free := fun x hx _ =>
  (h.segments _ ((plan_valid 0 h.table h.segments).1 x hx).1).aligned

theorem length_contents (ph : Proghdr) (hph : ph.Valid ip) : (ph.contents ip).length = ph.memsz.toNat := by
  have hsizes := hph.sizes
  have hfile := hph.inFile
  rw [Proghdr.contents, List.length_append, File.length_slice, List.length_replicate]
  omega

/-- **The segments are in the image.** -/
theorem at_load (h : ip.Valid) {top : ℕ} (htop : ip.plan.size = some top) {ph : Proghdr} (hph : ph ∈ ip.loads) :
    At (ip.plan.load ip fun _ => 0#8) ph.va.toNat (ph.contents ip) := by
  obtain ⟨hsegs, -⟩ := (plan_valid 0 h.table h.segments).2 top htop
  have hload : ip.plan.load ip (fun _ => 0#8) = layAll (fun _ => 0#8) (ip.loads.map (Proghdr.piece ip)) := by
    rw [Plan.load, File.loads, ← hsegs, List.map_map]
    rfl
  have hlen : ∀ x ∈ ip.loads, (x.piece ip).2.length = x.filesz.toNat := by
    intro x hx
    have hfile := (h.segments x hx).inFile
    show (ip.slice x.offset.toNat x.filesz.toNat).length = _
    rw [File.length_slice]
    omega
  rw [hload, Proghdr.contents, at_append]
  constructor
  · refine at_layAll (q := ph.piece ip) (List.pairwise_map.mpr ?_) (List.mem_map_of_mem hph)
    refine h.apart.imp_of_mem fun {x y} hx hy hxy => ?_
    unfold Proghdr.Clear at hxy
    have hxs := (h.segments x hx).sizes
    have hys := (h.segments y hy).sizes
    unfold Lib.Overlay.Apart
    rw [hlen x hx, hlen y hy]
    show x.va.toNat + _ ≤ y.va.toNat ∨ y.va.toNat + _ ≤ x.va.toNat
    omega
  · -- behind its bytes a segment meets no other
    intro i hi
    rw [List.length_replicate] at hi
    rw [List.getElem_replicate]
    refine layAll_of_outside fun q hq => ?_
    obtain ⟨y, hy, rfl⟩ := List.mem_map.mp hq
    have hph' := hlen ph hph
    have hys := (h.segments y hy).sizes
    rw [hlen y hy]
    show _ < y.va.toNat ∨ y.va.toNat + _ ≤ _
    change (ip.slice ph.offset.toNat ph.filesz.toNat).length = _ at hph'
    rw [hph']
    rcases eq_or_ne ph y with rfl | hne
    · exact .inr (by omega)
    · have hclear := h.apart.forall hph hy hne
      unfold Proghdr.Clear at hclear
      omega

end File.Valid

/-! ### The stack -/

/-- The frame that `exec` pushes is that of `main`. -/
theorem frame_eq {sp : ℕ} (hused : used argv ≤ sp) (hsp : sp ≤ usertop) :
    frame sp argv = mainFrame (BitVec.ofNat 32 (sp - used argv)) ((addresses sp argv).map (BitVec.ofNat 32)) := by
  unfold usertop at hsp
  have hargv : (pushed sp argv).sp - BitVec.ofNat 32 (((pushed sp argv).args.length + 1) * 4) =
      BitVec.ofNat 32 (sp - used argv) + 12#32 := by
    have hlow := toNat_pushed hsp argv
    have hlen := length_pushed sp argv
    have hesp := toNat_ofNat_le ((Nat.sub_le sp (used argv)).trans hsp)
    have hused' : used argv = rooms argv + 4 * (argv.length + 4) := rfl
    rw [hlen, ← BitVec.toNat_inj, toNat_sub_ofNat (by omega), hlow, BitVec.toNat_add, hesp,
      show (12#32).toNat = 12 from rfl]
    omega
  rw [frame, ustack, hargv]
  rfl

/-- **With the arguments in a page, the process finds all.** -/
theorem started {m₁ m : Mem} {d n : ℕ} {path : Bytes} {E : Finset ℕ} (hv : ip.Valid) (hpages : ip.plan.pages = some n)
    (hused : used argv ≤ n * 4096) (hpage : used argv ≤ 4096)
    (h : NewSpace L N s.mem m₁ D K d n (pushAll (ip.plan.load ip fun _ => 0#8) (n * 4096) argv))
    (hf : Framed L m₁ m E K) (hd : d ∈ E) :
    Started m ip argv ((s.proc p).runs path d (imageOf n argv) ip.elf.entry) := by
  have hbound := h.bound
  obtain ⟨top, htop, rfl⟩ := Option.map_eq_some_iff.mp hpages
  have htop' : (pgup top + 1) * 4096 ≤ usertop := by
    unfold usertop
    omega
  have hsz := toNat_ofNat_le htop'
  have hesp := toNat_ofNat_le ((Nat.sub_le _ (used argv)).trans htop')
  constructor
  · intro ph hph
    have hlen := File.Valid.length_contents ph (hv.segments ph hph)
    have hend := ((plan_valid 0 hv.table hv.segments).2 top htop).2 ph hph
    have hcover : top ≤ pgup top * 4096 := by
      unfold pgup
      omega
    refine h.shows hf hd (by omega) ((hv.at_load htop hph).congr fun i _ hi => ?_)
    exact pushAll_of_lt hused (by omega)
  have hframe := frame_eq hused htop'
  have hlen := length_frame ((pgup top + 1) * 4096) argv
  have hused' : used argv = rooms argv + 4 * (argv.length + 4) := rfl
  refine ⟨(addresses ((pgup top + 1) * 4096) argv).map (BitVec.ofNat 32), ?_, ?_, ?_⟩
  · show OnStack _ (BitVec.ofNat 32 _) (mainFrame (BitVec.ofNat 32 _) _)
    rw [← hframe]
    refine ⟨?_, ?_⟩
    · show (BitVec.ofNat 32 ((pgup top + 1) * 4096)).toNat ≤ _
      rw [hsz, hesp]
      omega
    · show _ ≤ (BitVec.ofNat 32 ((pgup top + 1) * 4096)).toNat
      rw [hsz, hesp, hlen]
      omega
  · show Shows m d (BitVec.ofNat 32 _).toNat (mainFrame (BitVec.ofNat 32 _) _)
    rw [← hframe, hesp]
    exact h.shows hf hd (by omega) at_lay
  · rw [List.forall₂_iff_get]
    refine ⟨by rw [List.length_map, length_addresses], fun i h1 hi => ?_⟩
    obtain ⟨h2, hlo, hhi, hat⟩ := at_push (ip.plan.load ip fun _ => 0#8) ((pgup top + 1) * 4096)
      (by omega) hi
    simp only [List.get_eq_getElem, List.getElem_map]
    have hroom := length_lt_room argv[i]
    generalize (addresses ((pgup top + 1) * 4096) argv)[i] = a at hlo hhi hat
    have ha : (BitVec.ofNat 32 a).toNat = a := toNat_ofNat_le (by omega)
    have hs : (argv[i] ++ [0#8]).length = argv[i].length + 1 := List.length_append
    refine ⟨⟨?_, ?_⟩, ?_⟩
    · show (BitVec.ofNat 32 ((pgup top + 1) * 4096)).toNat ≤ _
      rw [hsz, ha]
      omega
    · show _ ≤ (BitVec.ofNat 32 ((pgup top + 1) * 4096)).toNat
      rw [hsz, ha]
      omega
    · rw [ha]
      refine h.shows hf hd (by omega) (hat.congr fun j hj _ => pushAll_of_ge (by omega) hused)

variable {namei : Bytes → Option File} {path : Bytes}

/-- An image that `exec` commits to is in order only with arguments of a page, and no page 0 to give back. -/
theorem used_of_starts (h : Inv L N s.mem D K) (hd : (s.proc p).pgdir ∈ D) (hip : namei path = some ip) (hv : ip.Valid)
    (hlen : ∀ a ∈ argv, a.length < usertop) (hb : Builds ip.plan argv s.mem.freelist.length)
    (hs : Starts L namei p path ip argv s) : used argv ≤ 4096 ∧ ¬ HasNull s.mem (s.proc p).pgdir := by
  obtain ⟨r, t, hrun, hr⟩ := hs
  cases (exec_spec h hd hip (hv.inside _) hlen).of_ok hrun with
  | refused hno => exact absurd hv.elf hno
  | noDir hun =>
    obtain ⟨n, -, -, hfree, -⟩ := hb
    have := hun.few
    omega
  | undone _ _ hno => exact absurd hb hno
  | @done _ m d n _ _ hpages _ hused hnull hnew =>
    refine ⟨?_, hnull⟩
    have hbound := hnew.bound
    obtain hr | ⟨-, -, args, hstack, -⟩ := hr
    · exact absurd hr (by decide)
    have hlow := hstack.1
    simp only [Function.update_self, Proc.runs, imageOf, BitVec.toNat_ofNat] at hlow
    rw [Nat.mod_eq_of_lt (by omega), Nat.mod_eq_of_lt (by omega)] at hlow
    omega

/-- **`exec` of a valid executable** gives the process its program and its arguments, or returns -1, exactly unless
an image that it commits to has arguments of more than a page, or an entry with page 0 is to be given back. -/
theorem exec_starts_iff (h : Inv L N s.mem D K) (hd : (s.proc p).pgdir ∈ D) (hip : namei path = some ip)
    (hv : ip.Valid) (hlen : ∀ a ∈ argv, a.length < usertop) :
    Starts L namei p path ip argv s ↔
      (Builds ip.plan argv s.mem.freelist.length → used argv ≤ 4096 ∧ ¬ HasNull s.mem (s.proc p).pgdir) := by
  refine ⟨fun hs hb => used_of_starts h hd hip hv hlen hb hs, fun hcond => ?_⟩
  obtain ⟨r, t, hrun, hres⟩ := ((exec_spec h hd hip (hv.inside _) hlen).mono (fun _ _ hq => hq)
    fun e _ he => by
      obtain ⟨-, hal⟩ | ⟨-, hnull, hb⟩ := he
      · exact hal (hv.aligned _)
      · exact (hcond hb).2 hnull).returns
  refine ⟨r, t, hrun, ?_⟩
  cases hres with
  | refused => exact .inl rfl
  | noDir => exact .inl rfl
  | undone => exact .inl rfl
  | @done m₁ m d n helf _ hpages hmax hused hnull hnew _ hframe =>
    have hlen := hnew.length
    have hfit := (hcond ⟨n, hpages, hnew.bound, by omega, hmax, hused⟩).1
    refine .inr ⟨rfl, ?_⟩
    simp only [Function.update_self]
    refine started hv hpages hused hfit hnew hframe (Finset.mem_erase.mpr ⟨?_, hnew.live⟩)
    rintro rfl
    exact hnew.notLive hd

/-- An executable with a segment of one page, of which one byte is in the file. -/
def onePage : File where
  data := [0x7F#8, 0x45#8, 0x4C#8, 0x46#8] ++ List.replicate 24 0#8 ++ [0x34#8, 0#8, 0#8, 0#8] ++
    List.replicate 12 0#8 ++ [1#8] ++ List.replicate 7 0#8 ++
    [1#8, 0#8, 0#8, 0#8, 0x54#8] ++ List.replicate 11 0#8 ++ [1#8, 0#8, 0#8, 0#8, 0#8, 0x10#8] ++
    List.replicate 10 0#8 ++ [0xC3#8]
  size_lt := by decide

theorem onePage_headers : headers onePage onePage.elf.phnum.toNat onePage.elf.phoff =
    [some ⟨elfProgLoad, 84#32, 0#32, 1#32, 4096#32⟩] := rfl

theorem onePage_valid : onePage.Valid := by
  have hloads : onePage.loads = [⟨elfProgLoad, 84#32, 0#32, 1#32, 4096#32⟩] := by
    rw [File.loads, onePage_headers]
    rfl
  refine ⟨⟨by decide, rfl⟩, ?_, ?_, ?_⟩
  · rw [onePage_headers]
    simp
  · rw [hloads]
    intro ph hph
    obtain rfl := List.mem_singleton.mp hph
    exact ⟨by decide, by decide, by decide, by decide⟩
  · rw [hloads]
    exact List.pairwise_singleton _ _

theorem onePage_pages : onePage.plan.pages = some 2 := by
  rw [File.plan, Elfhdr.plan, onePage_headers]
  rfl

/-- A page of arguments at most is no problem. -/
theorem exec_starts_alone : ∃ (m : Mem) (d : ℕ),
    Starts smallKernel (fun _ => some onePage) 0 [] onePage [[0x61#8]] (alone m d) := by
  obtain ⟨⟨m, D, K⟩, d, h, hd, hempty, -⟩ := empty_reachable
  refine ⟨m, d, (exec_starts_iff (s := alone m d) (p := 0) (pool_inv h) hd rfl onePage_valid ?_).mpr fun _ => ⟨?_, ?_⟩⟩
  · decide
  · decide
  · rintro ⟨v, hv, hp, -⟩
    exact image_eq_none.mp (hempty v hv) hp

/-- More than a page: as many arguments as `sys_exec` passes on, as long as those of `bigargtest`. -/
def bigArgs : List Bytes := List.replicate 31 (List.replicate 138 0x20#8)

/-- The arguments take the place of the end of the segment. -/
theorem exec_overwrites : ¬ ∀ (L : Layout) (s : State) (p : Fin nproc) (D K : Finset ℕ) (namei : Bytes → Option File)
    (path : Bytes) (ip : File) (argv : List Bytes), Inv L False s.mem D K → (s.proc p).pgdir ∈ D →
      namei path = some ip → ip.Valid → (∀ a ∈ argv, a.length < usertop) → Starts L namei p path ip argv s := by
  intro hall
  obtain ⟨⟨m, D, K⟩, d, h, hd, -, hfree⟩ := empty_reachable
  have hfree : 2799 ≤ m.freelist.length := hfree
  have hused : used bigArgs = 4480 := by simp [used, rooms, room, bigArgs]
  have hlen : ∀ a ∈ bigArgs, a.length < usertop := by
    intro a ha
    rw [List.eq_of_mem_replicate ha, List.length_replicate]
    decide
  have hb : Builds onePage.plan bigArgs m.freelist.length := by
    refine ⟨2, onePage_pages, by omega, by omega, ?_, by omega⟩
    show (List.replicate 31 _).length ≤ 32
    rw [List.length_replicate]
    decide
  have hs := hall smallKernel (alone m d) 0 D K (fun _ => some onePage) [] onePage bigArgs (pool_inv h) hd rfl
    onePage_valid hlen
  have := (used_of_starts (s := alone m d) (p := 0) (pool_inv h) hd rfl onePage_valid hlen hb hs).1
  omega

end OperatingSystems.CowFork.Processes
