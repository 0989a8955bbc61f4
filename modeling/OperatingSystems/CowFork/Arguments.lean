import OperatingSystems.CowFork.Loading

/-! # The arguments of a program

The end of `exec`'s image: a page for the stack, the argument strings from its top on down, and below them the
frame of `main`. Nothing stops the stack pointer at the bottom of the page. -/

namespace OperatingSystems.CowFork.Processes

open Lib.WeakestPre Lib.Overlay

abbrev Bytes := List (BitVec 8)

/-- The bytes that a string takes with its NUL, in whole words. -/
def room (s : Bytes) : ℕ := (s.length + 4) / 4 * 4

/-- The bytes that the strings take. -/
def rooms (argv : List Bytes) : ℕ := (argv.map room).sum

/-- The bytes that the strings and the frame take. -/
def used (argv : List Bytes) : ℕ := rooms argv + 4 * (argv.length + 4)

/-- The addresses of the strings, which are pushed from `sp` on. -/
def addresses : ℕ → List Bytes → List ℕ
  | _, [] => []
  | sp, s :: argv => (sp - room s) :: addresses (sp - room s) argv

/-- The image with the strings. -/
def push (c : ℕ → BitVec 8) : ℕ → List Bytes → ℕ → BitVec 8
  | _, [] => c
  | sp, s :: argv => push (lay c (sp - room s) (s ++ [0#8])) (sp - room s) argv

/-- What the loop over the strings leaves. -/
def pushed (sp : ℕ) (argv : List Bytes) : Pushed where
  sp := BitVec.ofNat 32 (sp - rooms argv)
  args := (addresses sp argv).map (BitVec.ofNat 32)

/-- The frame that goes below the strings. -/
def frame (sp : ℕ) (argv : List Bytes) : Bytes := (ustack (pushed sp argv)).flatMap wordBytes

/-- The image with the strings and the frame. -/
def pushAll (c : ℕ → BitVec 8) (sp : ℕ) (argv : List Bytes) : ℕ → BitVec 8 :=
  lay (push c sp argv) (sp - used argv) (frame sp argv)

/-- The pages of the image, with the one for the stack. -/
def Plan.pages (pl : Plan) : Option ℕ := pl.size.map fun top => pgup top + 1

/-- What `exec` makes of a file. -/
def Elfhdr.plan (elf : Elfhdr) (ip : File) : Plan := Processes.plan ip (headers ip elf.phnum.toNat elf.phoff) 0

/-- The image has a size, with room for the arguments, and there is memory for its directory and its pages. -/
def Builds (pl : Plan) (argv : List Bytes) (free : ℕ) : Prop :=
  ∃ n, pl.pages = some n ∧ n ≤ 160 ∧ 13 + n ≤ free ∧ argv.length ≤ maxarg ∧ used argv ≤ n * 4096

theorem rooms_cons (s : Bytes) (argv : List Bytes) : rooms (s :: argv) = room s + rooms argv := List.sum_cons

theorem length_addresses (sp : ℕ) (argv : List Bytes) : (addresses sp argv).length = argv.length := by
  induction argv generalizing sp with
  | nil => rfl
  | cons s argv ih => rw [addresses, List.length_cons, ih, List.length_cons]

theorem length_pushed (sp : ℕ) (argv : List Bytes) : (pushed sp argv).args.length = argv.length := by
  rw [pushed, List.length_map, length_addresses]

theorem toNat_ofNat_le {k : ℕ} (hk : k ≤ usertop) : (BitVec.ofNat 32 k).toNat = k := by
  unfold usertop at hk
  rw [BitVec.toNat_ofNat]
  exact Nat.mod_eq_of_lt (by omega)

theorem toNat_pushed {sp : ℕ} (hsp : sp ≤ usertop) (argv : List Bytes) :
    (pushed sp argv).sp.toNat = sp - rooms argv := toNat_ofNat_le ((Nat.sub_le _ _).trans hsp)

theorem length_wordBytes (w : Word) : (wordBytes w).length = 4 := rfl

theorem length_frame (sp : ℕ) (argv : List Bytes) : (frame sp argv).length = 4 * (argv.length + 4) := by
  have hwords : ∀ ws : List Word, (ws.flatMap wordBytes).length = 4 * ws.length := by
    intro ws
    induction ws with
    | nil => rfl
    | cons w ws ih =>
      rw [List.flatMap_cons, List.length_append, ih, length_wordBytes, List.length_cons]
      omega
  rw [frame, hwords]
  simp only [ustack, List.length_cons, List.length_append, length_pushed, List.length_nil]

/-! ### What is where -/

section
variable {c : ℕ → BitVec 8} {sp a : ℕ} {argv : List Bytes}

theorem length_lt_room (s : Bytes) : s.length + 1 ≤ room s := by
  unfold room
  omega

/-- Above the stack pointer nothing changes. -/
theorem push_of_ge (hroom : rooms argv ≤ sp) (ha : sp ≤ a) : push c sp argv a = c a := by
  induction argv generalizing c sp with
  | nil => rfl
  | cons s argv ih =>
    rw [rooms_cons] at hroom
    have hs := length_lt_room s
    rw [push, ih (by omega) (by omega)]
    refine lay_of_ge ?_
    rw [List.length_append, List.length_singleton]
    omega

/-- And below the strings. -/
theorem push_of_lt (hroom : rooms argv ≤ sp) (ha : a < sp - rooms argv) : push c sp argv a = c a := by
  induction argv generalizing c sp with
  | nil => rfl
  | cons s argv ih =>
    rw [rooms_cons] at hroom ha
    rw [push, ih (by omega) (by omega)]
    exact lay_of_lt (by omega)

/-- **Every string is in the image**, at its address. -/
theorem at_push (c : ℕ → BitVec 8) (sp : ℕ) (hroom : rooms argv ≤ sp) {i : ℕ} (hi : i < argv.length) :
    ∃ h : i < (addresses sp argv).length, sp - rooms argv ≤ (addresses sp argv)[i] ∧
      (addresses sp argv)[i] + room argv[i] ≤ sp ∧ At (push c sp argv) (addresses sp argv)[i] (argv[i] ++ [0#8]) := by
  refine ⟨by rwa [length_addresses], ?_⟩
  induction argv generalizing c sp i with
  | nil => cases hi
  | cons s argv ih =>
    rw [rooms_cons] at hroom ⊢
    cases i with
    | zero =>
      simp only [addresses, List.getElem_cons_zero, push]
      have hs := length_lt_room s
      refine ⟨by omega, by omega, ?_⟩
      refine at_lay.congr fun j h1 h2 => push_of_ge (by omega) h1
    | succ i =>
      simp only [addresses, List.getElem_cons_succ, push]
      obtain ⟨h1, h2, h3⟩ := ih (lay c (sp - room s) (s ++ [0#8])) (sp - room s) (by omega)
        (Nat.lt_of_succ_lt_succ hi)
      exact ⟨by omega, by omega, h3⟩

/-- The frame lies below the strings. -/
theorem pushAll_of_ge (ha : sp - rooms argv ≤ a) (hused : used argv ≤ sp) : pushAll c sp argv a = push c sp argv a := by
  refine lay_of_ge ?_
  rw [length_frame]
  unfold used at hused ⊢
  omega

theorem pushAll_of_lt (hused : used argv ≤ sp) (ha : a < sp - used argv) : pushAll c sp argv a = c a := by
  unfold used at hused ha
  rw [pushAll, lay_of_lt (by unfold used; omega), push_of_lt (by omega) (by omega)]

end

/-! ### The stack pointer -/

variable {sp : Word} {s : Bytes}

theorem toNat_pgdown_four (w : Word) : (w &&& ~~~3#32).toNat = w.toNat / 4 * 4 := Lib.Words.toNat_clear_low w 2

/-- The stack pointer goes down where there is room. -/
theorem toNat_sub_ofNat {k : ℕ} (hk : k ≤ sp.toNat) : (sp - BitVec.ofNat 32 k).toNat = sp.toNat - k := by
  have hlt := sp.isLt
  have hnat : (BitVec.ofNat 32 k).toNat = k := by rw [BitVec.toNat_ofNat, Nat.mod_eq_of_lt (by omega)]
  rw [BitVec.toNat_sub_of_le (by rwa [BitVec.le_def, hnat]), hnat]

/-- And wraps around where there is none. -/
theorem toNat_sub_ofNat_wrap {k : ℕ} (hlt : sp.toNat < k) (hk : k < 2 ^ 32) :
    (sp - BitVec.ofNat 32 k).toNat = 2 ^ 32 + sp.toNat - k := by
  rw [BitVec.toNat_sub, BitVec.toNat_ofNat, Nat.mod_eq_of_lt hk, Nat.mod_eq_of_lt (by omega)]
  omega

end OperatingSystems.CowFork.Processes

namespace OperatingSystems.CowFork.NewSpace

open Lib.WeakestPre Lib.Overlay Processes

variable {L : Layout} {N : Prop} {m₀ m m' : Mem} {D K : Finset ℕ} {d n : ℕ} {c : ℕ → BitVec 8}

/-- What the loop over the strings comes to, with room for them or without. -/
inductive PushResult (L : Layout) (N : Prop) (m₀ : Mem) (D K : Finset ℕ) (d n : ℕ) (c : ℕ → BitVec 8) (st : Pushed)
    (argv : List Bytes) : Option Pushed → Mem → Prop where
  | done {m' : Mem} {st' : Pushed} (hmax : st.args.length + argv.length ≤ maxarg)
      (hroom : rooms argv ≤ st.sp.toNat) (hsp : st'.sp = (pushed st.sp.toNat argv).sp)
      (hargs : st'.args = st.args ++ (pushed st.sp.toNat argv).args)
      (h : NewSpace L N m₀ m' D K d n (push c st.sp.toNat argv)) : PushResult L N m₀ D K d n c st argv (some st') m'
  | bad {m' : Mem} {c' : ℕ → BitVec 8} (hno : maxarg < st.args.length + argv.length ∨ st.sp.toNat < rooms argv)
      (h : NewSpace L N m₀ m' D K d n c') : PushResult L N m₀ D K d n c st argv none m'

/-- **The loop over the argument strings.** The stack pointer wraps around to an address of the kernel. -/
theorem pushArgs_spec {argv : List Bytes} {st : Pushed} (h : NewSpace L N m₀ m D K d n c)
    (hsp : st.sp.toNat ≤ n * 4096) (hword : st.sp.toNat % 4 = 0) (hargs : st.args.length ≤ maxarg) (hlen : ∀ s ∈ argv, s.length < usertop) :
    Wp (pushArgs d argv st) (PushResult L N m₀ D K d n c st argv) (fun _ _ => False) m := by
  have hbound := h.bound
  induction argv generalizing st c m with
  | nil =>
    refine wp_pure.mpr (.done hargs (Nat.zero_le _) ?_ (List.append_nil _).symm h)
    simp [pushed, rooms]
  | cons s argv ih =>
    have hs : s.length < 0xA0000 := hlen s List.mem_cons_self
    rw [pushArgs]
    refine wp_ite.mpr ⟨fun hmax => wp_pure.mpr (.bad (.inl ?_) h), fun hmax => ?_⟩
    · rw [List.length_cons]
      omega
    by_cases hroom : room s ≤ st.sp.toNat
    · have hnat := toNat_pgdown_four (st.sp - BitVec.ofNat 32 (s.length + 1))
      rw [toNat_sub_ofNat (by unfold room at hroom; omega)] at hnat
      have hnext : (st.sp.toNat - (s.length + 1)) / 4 * 4 = st.sp.toNat - room s := by
        unfold room
        omega
      rw [hnext] at hnat
      generalize (st.sp - BitVec.ofNat 32 (s.length + 1)) &&& ~~~3#32 = sp at hnat
      refine Wp.bind ((h.copyout_spec ?_).mono (fun _ _ hr => hr)
        fun _ _ => False.elim) ?_
      · rw [hnat, List.length_append, List.length_singleton]
        unfold room at hroom ⊢
        omega
      rintro r m₁ ⟨rfl, h₁⟩
      rw [if_pos rfl]
      have hsp' : BitVec.ofNat 32 (st.sp.toNat - room s) = sp := by
        rw [← hnat, BitVec.ofNat_toNat, BitVec.setWidth_eq]
      have hpushed : pushed st.sp.toNat (s :: argv) =
          ⟨(pushed sp.toNat argv).sp, sp :: (pushed sp.toNat argv).args⟩ := by
        rw [pushed, rooms_cons, ← Nat.sub_sub, addresses, List.map_cons, hsp', ← hnat]
        rfl
      have hcount : (st.args ++ [sp]).length + argv.length = st.args.length + (s :: argv).length := by
        simp only [List.length_append, List.length_cons, List.length_nil]
        omega
      refine (ih h₁ ?_ ?_ ?_ fun t ht => hlen t (List.mem_cons_of_mem _ ht)).imp ?_
      · show sp.toNat ≤ n * 4096
        omega
      · show sp.toNat % 4 = 0
        unfold room at hnat
        omega
      · rw [List.length_append, List.length_singleton]
        omega
      rintro r m' (⟨hmax', hroom', hsp', hargs', h'⟩ | ⟨hno, h'⟩)
      · refine .done (by rwa [← hcount]) ?_ (by rw [hpushed, hsp']) ?_ ?_
        · rw [rooms_cons]
          simp only at hroom'
          omega
        · rw [hpushed, hargs', List.append_assoc, List.singleton_append]
        · rwa [push, ← hnat]
      · refine .bad ?_ h'
        rw [hcount] at hno
        refine hno.imp_right fun hlt => ?_
        rw [rooms_cons]
        simp only at hlt
        omega
    · have hwrap := toNat_pgdown_four (st.sp - BitVec.ofNat 32 (s.length + 1))
      unfold room at hroom
      rw [toNat_sub_ofNat_wrap (by omega) (by omega)] at hwrap
      refine Wp.bind ((h.copyout_kernel (by simp) (by omega)).mono (fun _ _ hr => hr) fun _ _ => False.elim) ?_
      rintro r m₁ ⟨rfl, rfl⟩
      rw [if_neg Bool.false_ne_true]
      refine wp_pure.mpr (.bad (.inr ?_) h)
      rw [rooms_cons]
      unfold room
      omega

/-! ### The image -/

/-- What `exec` has built before it commits: the image with the arguments, or less. -/
inductive BuildResult (L : Layout) (N : Prop) (m₀ : Mem) (D K : Finset ℕ) (d : ℕ) (ip : File) (pl : Plan)
    (argv : List Bytes) : Option Image → Mem → Prop where
  | built {m' : Mem} {n : ℕ} (hpages : pl.pages = some n) (hmax : argv.length ≤ maxarg)
      (hused : used argv ≤ n * 4096)
      (h : NewSpace L N m₀ m' D K d n (pushAll (pl.load ip fun _ => 0#8) (n * 4096) argv)) :
      BuildResult L N m₀ D K d ip pl argv (some ⟨n * 4096, BitVec.ofNat 32 (n * 4096 - used argv)⟩) m'
  | bad {m' : Mem} {n : ℕ} {c' : ℕ → BitVec 8} (hno : ¬ Builds pl argv m₀.freelist.length)
      (h : NewSpace L N m₀ m' D K d n c') : BuildResult L N m₀ D K d ip pl argv none m'

/-- The page for the stack. -/
theorem stackPage_spec {top : ℕ} (h : NewSpace L N m₀ m D K d (pgup top) c) :
    Wp (allocuvm L d (pgup top * 4096) (pgup top * 4096 + 4096)) (fun r m' =>
      (r = (pgup top + 1) * 4096 ∧ NewSpace L N m₀ m' D K d (pgup top + 1) c) ∨
      r = 0 ∧ (pgup top + 1 ≤ 160 → m₀.freelist.length < 13 + (pgup top + 1)) ∧
        NewSpace L N m₀ m' D K d (pgup top) c) (fun _ _ => False) m := by
  have hwhole : pgup (pgup top * 4096) = pgup top := by
    unfold pgup
    omega
  have hnext : pgup (pgup top * 4096 + 4096) = pgup top + 1 := by
    unfold pgup
    omega
  have hmax : max (pgup top * 4096) (pgup top * 4096 + 4096) = pgup top * 4096 + 4096 := by omega
  have hlen := h.length
  rw [← hwhole] at h
  refine h.allocuvm_spec.mono ?_ fun _ _ => False.elim
  rw [hmax, hwhole, hnext]
  rintro r m' (⟨rfl, -, -, h'⟩ | ⟨rfl, hshort, h'⟩)
  · exact .inl ⟨by omega, h'⟩
  · refine .inr ⟨rfl, fun hle => ?_, h'⟩
    have := (hshort (by unfold usertop; omega)).2
    omega

/-- The frame goes below the strings, if there is room for it. -/
theorem pushFrame_spec {argv : List Bytes} (h : NewSpace L N m₀ m D K d n (push c (n * 4096) argv))
    (hmax : argv.length ≤ maxarg) (hroom : rooms argv ≤ n * 4096) :
    Wp (copyout d ((pushed (n * 4096) argv).sp - BitVec.ofNat 32 ((3 + (pushed (n * 4096) argv).args.length + 1) * 4))
      (frame (n * 4096) argv)) (fun r m' =>
        (r = true ∧ used argv ≤ n * 4096 ∧ NewSpace L N m₀ m' D K d n (pushAll c (n * 4096) argv)) ∨
        r = false ∧ n * 4096 < used argv ∧ m' = m) (fun _ _ => False) m := by
  have hbound := h.bound
  have hst := toNat_pushed (show n * 4096 ≤ usertop by unfold usertop; omega) argv
  have hframe := length_frame (n * 4096) argv
  have hused : used argv = rooms argv + 4 * (argv.length + 4) := rfl
  have hsize : (3 + (pushed (n * 4096) argv).args.length + 1) * 4 = 4 * (argv.length + 4) := by
    rw [length_pushed]
    omega
  rw [hsize]
  by_cases hfit : used argv ≤ n * 4096
  · have hsp : ((pushed (n * 4096) argv).sp - BitVec.ofNat 32 (4 * (argv.length + 4))).toNat =
        n * 4096 - used argv := by
      rw [toNat_sub_ofNat (by omega), hst]
      omega
    refine (h.copyout_spec (by omega)).mono ?_ fun _ _ => False.elim
    rintro r m' ⟨rfl, h'⟩
    rw [hsp] at h'
    exact .inl ⟨rfl, hfit, h'⟩
  · have hmax : argv.length ≤ 32 := hmax
    have hwrap := toNat_sub_ofNat_wrap
      (show (pushed (n * 4096) argv).sp.toNat < 4 * (argv.length + 4) by omega) (by omega)
    refine (h.copyout_kernel (fun hnil => ?_) (by omega)).mono ?_ fun _ _ => False.elim
    · rw [hnil, List.length_nil] at hframe
      omega
    · rintro r m' ⟨rfl, rfl⟩
      exact .inr ⟨rfl, by omega, rfl⟩

/-- **`exec` builds the image**, if the file has a plan, there is memory for it and room for the arguments. -/
theorem buildImage_spec {cur : ℕ} {ip : File} {elf : Elfhdr} {argv : List Bytes}
    (h : NewSpace L N m₀ m D K d 0 fun _ => 0#8) (hin : (elf.plan ip).Inside ip m₀.freelist.length)
    (hlen : ∀ s ∈ argv, s.length < usertop) :
    Wp (buildImage L cur d ip elf argv)
      (fun r m' => BuildResult L N m₀ D K d ip (elf.plan ip) argv r m' ∧ (elf.plan ip).Aligned m₀.freelist.length)
      (fun e _ => e = .loaduvmAlign ∧ ¬ (elf.plan ip).Aligned m₀.freelist.length) m := by
  have h : NewSpace L N m₀ m D K d (pgup 0) fun _ => 0#8 := h
  unfold buildImage
  refine Wp.bind (h.loadLoop_spec hin) ?_
  rintro r m₁ ⟨⟨hsize, h₁⟩ | ⟨hsize, h₁⟩, hal⟩
  swap
  · refine wp_pure.mpr ⟨.bad ?_ h₁, hal⟩
    rintro ⟨n, hpages, -, hfree, -⟩
    obtain ⟨top, htop, rfl⟩ := Option.map_eq_some_iff.mp hpages
    have := hsize top htop
    omega
  rename_i top
  have hpages : (elf.plan ip).pages = some (pgup top + 1) := Option.map_eq_some_iff.mpr ⟨top, hsize, rfl⟩
  refine Wp.bind (h₁.stackPage_spec.mono (fun _ _ hr => hr) fun _ _ => False.elim) ?_
  rintro r m₂ (⟨rfl, h₂⟩ | ⟨rfl, hshort, h₂⟩)
  swap
  · rw [if_pos rfl]
    refine wp_pure.mpr ⟨.bad ?_ h₂, hal⟩
    rintro ⟨n, hn, hle, hfree, -⟩
    obtain rfl := Option.some.inj (hpages.symm.trans hn)
    have := hshort hle
    omega
  have hpos : 0 < pgup top + 1 := Nat.succ_pos _
  generalize pgup top + 1 = n at hpages h₂ hpos
  have hbound := h₂.bound
  have hnat : (BitVec.ofNat 32 (n * 4096)).toNat = n * 4096 := toNat_ofNat_le (by unfold usertop; omega)
  have hbuilds : Builds (elf.plan ip) argv m₀.freelist.length → argv.length ≤ maxarg ∧ used argv ≤ n * 4096 := by
    rintro ⟨k, hk, -, -, hmax, hused⟩
    obtain rfl := Option.some.inj (hpages.symm.trans hk)
    exact ⟨hmax, hused⟩
  rw [if_neg (show ¬ n * 4096 = 0 by omega)]
  refine Wp.bind ((h₂.pushArgs_spec hnat.le
    (by rw [hnat]; omega) (Nat.zero_le _) hlen).mono (fun _ _ hr => hr) fun _ _ => False.elim) ?_
  rintro r m₃ (⟨hargs, hroom, hsp, hptrs, h₃⟩ | ⟨hno, h₃⟩)
  swap
  · refine wp_pure.mpr ⟨.bad (fun hb => ?_) h₃, hal⟩
    obtain ⟨hmax, hused⟩ := hbuilds hb
    rw [hnat] at hno
    unfold used at hused
    rcases hno with hlt | hlt
    · rw [List.length_nil] at hlt
      omega
    · omega
  rename_i st
  simp only [hnat, List.length_nil, zero_add, List.nil_append] at hargs hroom hsp hptrs h₃
  obtain rfl : st = pushed (n * 4096) argv := by
    cases st
    rw [pushed] at hsp hptrs ⊢
    exact congrArg₂ Pushed.mk hsp hptrs
  refine Wp.bind ((h₃.pushFrame_spec hargs hroom).mono (fun _ _ hr => hr) fun _ _ => False.elim) ?_
  rintro r m₄ (⟨rfl, hused, h₄⟩ | ⟨rfl, hlt, rfl⟩)
  · have hesp : (pushed (n * 4096) argv).sp - BitVec.ofNat 32 ((3 + (pushed (n * 4096) argv).args.length + 1) * 4) =
        BitVec.ofNat 32 (n * 4096 - used argv) := by
      have hused' : used argv = rooms argv + 4 * (argv.length + 4) := rfl
      have hst := toNat_pushed (show n * 4096 ≤ usertop by unfold usertop; omega) argv
      have hcount := length_pushed (n * 4096) argv
      rw [← BitVec.toNat_inj, toNat_sub_ofNat (by omega), toNat_ofNat_le (by unfold usertop; omega), hst]
      omega
    rw [if_pos rfl, hesp]
    exact wp_pure.mpr ⟨.built hpages hargs hused h₄, hal⟩
  · rw [if_neg Bool.false_ne_true]
    exact wp_pure.mpr ⟨.bad (fun hb => absurd (hbuilds hb).2 (by omega)) h₃, hal⟩

end OperatingSystems.CowFork.NewSpace
