import OperatingSystems.CowFork.NewSpace

/-! # Loading a program

The loop of `exec` over the program headers, up to the page for the stack. What it makes of a file is its
`plan`: the segments that it loads, and the size of the image.

* `Inside`: the bytes of every segment go to pages of the new directory. The sum `ph.va + ph.memsz` may wrap
  around, so that not every file is so.
* `NewSpace.loadLoop_spec`: for such a file the loop carries out the plan, if there is memory for it. -/

namespace OperatingSystems.CowFork.Processes

open Lib.WeakestPre Lib.Overlay

/-! ### The plan -/

/-- The program header at `off`, where the file has the whole of it. -/
def header (ip : File) (off : Word) : Option Proghdr :=
  match readi ip off proghdrSize with
  | none => none
  | some bytes => if bytes.length ≠ proghdrSize.toNat then none else some (Proghdr.ofBytes bytes)

/-- The program headers. -/
def headers (ip : File) : ℕ → Word → List (Option Proghdr)
  | 0, _ => []
  | k + 1, off => header ip off :: headers ip k (off + proghdrSize)

/-- A program header, with the size of the image when `loaduvm` is called for it. -/
structure Segment where
  ph : Proghdr
  size : ℕ

/-- The segments that `loaduvm` is called for, and the size of the image; without a size, `goto bad`. -/
structure Plan where
  segs : List Segment
  size : Option ℕ

/-- The size of the image with a segment. -/
def Proghdr.grow (ph : Proghdr) (sz : ℕ) : ℕ := max sz (ph.va + ph.memsz).toNat

/-- The file has the bytes of the segment. -/
def Proghdr.InFile (ip : File) (ph : Proghdr) : Prop :=
  ph.filesz.toNat = 0 ∨ ph.offset.toNat + ph.filesz.toNat ≤ ip.data.length

instance (ip : File) (ph : Proghdr) : Decidable (ph.InFile ip) := inferInstanceAs (Decidable (_ ∨ _))

/-- What the loop makes of the headers that are left, at the size so far. -/
def plan (ip : File) : List (Option Proghdr) → ℕ → Plan
  | [], sz => ⟨[], some sz⟩
  | none :: _, _ => ⟨[], none⟩
  | some ph :: phs, sz =>
    if ph.type ≠ elfProgLoad then plan ip phs sz
    else if ph.memsz < ph.filesz ∨ usertop < (ph.va + ph.memsz).toNat ∨ ph.grow sz = 0 then ⟨[], none⟩
    else if ph.InFile ip then
      let rest := plan ip phs (ph.grow sz)
      ⟨⟨ph, ph.grow sz⟩ :: rest.segs, rest.size⟩
    else ⟨[⟨ph, ph.grow sz⟩], none⟩

theorem plan_some {ip : File} {ph : Proghdr} {phs : List (Option Proghdr)} {sz : ℕ} : plan ip (some ph :: phs) sz =
    if ph.type ≠ elfProgLoad then plan ip phs sz
    else if ph.memsz < ph.filesz ∨ usertop < (ph.va + ph.memsz).toNat ∨ ph.grow sz = 0 then ⟨[], none⟩
    else if ph.InFile ip then
      ⟨⟨ph, ph.grow sz⟩ :: (plan ip phs (ph.grow sz)).segs, (plan ip phs (ph.grow sz)).size⟩
    else ⟨[⟨ph, ph.grow sz⟩], none⟩ := rfl

/-- The size only grows. -/
theorem le_of_plan {ip : File} {phs : List (Option Proghdr)} {sz top : ℕ} (h : (plan ip phs sz).size = some top) :
    sz ≤ top := by
  induction phs generalizing sz with
  | nil => exact (Option.some.inj h).le
  | cons ph phs ih =>
    cases ph with
    | none => cases h
    | some ph =>
      rw [plan_some] at h
      split_ifs at h
      · exact ih h
      · exact (le_max_left ..).trans (ih h)

/-- A segment of the plan is at least as large as the image so far. -/
theorem le_of_mem_plan {ip : File} {phs : List (Option Proghdr)} {sz : ℕ} {x : Segment}
    (hx : x ∈ (plan ip phs sz).segs) : sz ≤ x.size := by
  induction phs generalizing sz with
  | nil => cases hx
  | cons ph phs ih =>
    cases ph with
    | none => cases hx
    | some ph =>
      have hgrow : sz ≤ ph.grow sz := le_max_left ..
      rw [plan_some] at hx
      split_ifs at hx
      · exact ih hx
      · cases hx
      · rcases List.mem_cons.mp hx with rfl | hx
        · exact hgrow
        · exact hgrow.trans (ih hx)
      · rw [List.mem_singleton] at hx
        exact hx ▸ hgrow

/-- The bytes of the segment go to pages below the size. -/
def Segment.Inside (ip : File) (x : Segment) : Prop :=
  StaysBelow ip x.ph.va x.ph.offset x.ph.filesz (pgup x.size * 4096)

/-- There is memory for the directory and for the image up to the segment. -/
def Segment.Reached (free : ℕ) (x : Segment) : Prop := 13 + pgup x.size ≤ free

/-- Each segment that is reached starts a page. -/
def Plan.Aligned (free : ℕ) (pl : Plan) : Prop := ∀ x ∈ pl.segs, x.Reached free → x.ph.va.toNat % 4096 = 0

/-- The bytes of each segment that is reached go to pages of the image. -/
def Plan.Inside (ip : File) (free : ℕ) (pl : Plan) : Prop := ∀ x ∈ pl.segs, x.Reached free → x.Inside ip

/-- The bytes of a segment, and where they go. -/
def Proghdr.piece (ip : File) (ph : Proghdr) : ℕ × List (BitVec 8) :=
  (ph.va.toNat, ip.slice ph.offset.toNat ph.filesz.toNat)

/-- The image `c` with all segments. -/
def Plan.load (ip : File) (pl : Plan) (c : ℕ → BitVec 8) : ℕ → BitVec 8 :=
  layAll c (pl.segs.map fun x => x.ph.piece ip)

end OperatingSystems.CowFork.Processes

namespace OperatingSystems.CowFork

open Lib.WeakestPre Lib.Overlay Processes

variable {L : Layout} {N : Prop} {m₀ m m' : Mem} {D K : Finset ℕ} {d n sz : ℕ} {c : ℕ → BitVec 8} {ip : File}

/-- A round of the loop, by what the header says. -/
theorem loadLoop_succ {cur k : ℕ} {off : Word} : loadLoop L cur d ip (k + 1) off sz =
    match header ip off with
    | none => return none
    | some ph => do
      if ph.type ≠ elfProgLoad then loadLoop L cur d ip k (off + proghdrSize) sz
      else if ph.memsz < ph.filesz then return none
      else
        let sz ← allocuvm L d sz (ph.va + ph.memsz).toNat
        if sz = 0 then return none
        else if ← loaduvm cur d ph.va ip ph.offset ph.filesz then loadLoop L cur d ip k (off + proghdrSize) sz
        else return none := by
  rw [loadLoop, header]
  cases readi ip off proghdrSize with
  | none => rfl
  | some bytes =>
    by_cases hlen : bytes.length ≠ proghdrSize.toNat
    · simp only [if_pos hlen]
    · simp only [if_neg hlen]

namespace NewSpace

/-- What the loop over the program headers comes to: the plan is carried out, or it has no size, or there is too
little memory. -/
inductive LoadResult (L : Layout) (N : Prop) (m₀ : Mem) (D K : Finset ℕ) (d : ℕ) (ip : File) (c : ℕ → BitVec 8)
    (pl : Plan) : Option ℕ → Mem → Prop where
  | done {m' : Mem} {top : ℕ} (hsize : pl.size = some top)
      (h : NewSpace L N m₀ m' D K d (pgup top) (pl.load ip c)) : LoadResult L N m₀ D K d ip c pl (some top) m'
  | bad {m' : Mem} {n : ℕ} {c' : ℕ → BitVec 8}
      (hsize : ∀ top, pl.size = some top → m₀.freelist.length < 13 + pgup top) (h : NewSpace L N m₀ m' D K d n c') :
      LoadResult L N m₀ D K d ip c pl none m'

/-- `loaduvm` refuses a segment that does not start a page. -/
theorem loaduvm_unaligned {cur : ℕ} {addr offset sz : Word} (haddr : addr.toNat % 4096 ≠ 0) :
    Wp (loaduvm cur d addr ip offset sz) (fun _ _ => False) (fun e _ => e = .loaduvmAlign) m := by
  unfold loaduvm
  rw [if_pos haddr]
  exact wp_throw.mpr rfl

/-- A segment without bytes in the file changes nothing. -/
theorem loaduvm_empty {cur : ℕ} {addr offset sz : Word} (haddr : addr.toNat % 4096 = 0) (hsz : sz.toNat = 0) :
    Wp (loaduvm cur d addr ip offset sz) (fun r m' => r = true ∧ m' = m) (fun _ _ => False) m := by
  unfold loaduvm
  rw [if_neg (not_not.mpr haddr), hsz]
  exact wp_pure.mpr ⟨rfl, rfl⟩

/-- **`loaduvm` for a segment** of the plan. -/
theorem load_spec {cur : ℕ} (x : Segment) (h : NewSpace L N m₀ m D K d (pgup x.size) c) (hin : x.Inside ip) :
    Wp (loaduvm cur d x.ph.va ip x.ph.offset x.ph.filesz) (fun r m' => x.ph.va.toNat % 4096 = 0 ∧
      ((r = true ∧ x.ph.InFile ip ∧
          NewSpace L N m₀ m' D K d (pgup x.size) (lay c (x.ph.piece ip).1 (x.ph.piece ip).2)) ∨
        r = false ∧ ¬ x.ph.InFile ip ∧ ∃ c', NewSpace L N m₀ m' D K d (pgup x.size) c'))
      (fun e _ => e = .loaduvmAlign ∧ x.ph.va.toNat % 4096 ≠ 0) m := by
  by_cases haddr : x.ph.va.toNat % 4096 = 0
  swap
  · exact (loaduvm_unaligned haddr).mono (fun _ _ => False.elim) fun _ _ he => ⟨he, haddr⟩
  by_cases hempty : x.ph.filesz.toNat = 0
  · refine (loaduvm_empty haddr hempty).mono ?_ fun _ _ => False.elim
    rintro r m' ⟨rfl, rfl⟩
    refine ⟨haddr, .inl ⟨rfl, .inl hempty, ?_⟩⟩
    rwa [Proghdr.piece, hempty, File.slice, List.take_zero, lay_nil]
  · refine (h.loaduvm_spec haddr hin).mono ?_ fun _ _ => False.elim
    rintro r m' (⟨rfl, hfile, h'⟩ | ⟨rfl, hshort, h'⟩)
    · exact ⟨haddr, .inl ⟨rfl, hfile, h'⟩⟩
    · refine ⟨haddr, .inr ⟨rfl, fun hfile => ?_, h'⟩⟩
      have := hfile.resolve_left hempty
      omega

/-- **The loop over the program headers** carries out the plan, or `goto bad`. It stops at a segment that does not
start a page. -/
theorem loadLoop_spec {cur k : ℕ} {off : Word} (h : NewSpace L N m₀ m D K d (pgup sz) c)
    (hin : (plan ip (headers ip k off) sz).Inside ip m₀.freelist.length) :
    Wp (loadLoop L cur d ip k off sz) (fun r m' => LoadResult L N m₀ D K d ip c (plan ip (headers ip k off) sz) r m' ∧
        (plan ip (headers ip k off) sz).Aligned m₀.freelist.length)
      (fun e _ => e = .loaduvmAlign ∧ ¬ (plan ip (headers ip k off) sz).Aligned m₀.freelist.length) m := by
  have hnone : ∀ {size : Option ℕ}, (⟨[], size⟩ : Plan).Aligned m₀.freelist.length := fun _ hx => by cases hx
  have hbad : ∀ {segs : List Segment} {top : ℕ}, (⟨segs, none⟩ : Plan).size = some top →
      m₀.freelist.length < 13 + pgup top := fun htop => by cases htop
  induction k generalizing off sz c m with
  | zero => exact wp_pure.mpr ⟨.done rfl h, hnone⟩
  | succ k ih =>
    rw [loadLoop_succ]
    rw [headers] at hin ⊢
    generalize header ip off = o at hin ⊢
    cases o with
    | none => exact wp_pure.mpr ⟨.bad (fun _ => hbad) h, hnone⟩
    | some ph =>
      rw [plan_some] at hin ⊢
      simp only [wp_ite, wp_pure]
      refine ⟨fun htype => ?_, fun htype => ⟨fun hmem => ?_, fun hmem => ?_⟩⟩
      · rw [if_pos htype] at hin ⊢
        exact ih h hin
      · rw [if_neg htype, if_pos (.inl hmem)]
        exact ⟨.bad (fun _ => hbad) h, hnone⟩
      rw [if_neg htype] at hin ⊢
      refine Wp.bind (h.allocuvm_spec.mono (fun _ _ hr => hr) fun _ _ => False.elim) ?_
      rintro r m₁ (⟨rfl, htop, -, h₁⟩ | ⟨rfl, hshort, h₁⟩)
      · rw [wp_ite]
        refine ⟨fun h0 => wp_pure.mpr ?_, fun h0 => ?_⟩
        · rw [if_pos (.inr (.inr h0))]
          exact ⟨.bad (fun _ => hbad) h₁, hnone⟩
        have hcond : ¬ (ph.memsz < ph.filesz ∨ usertop < (ph.va + ph.memsz).toNat ∨ ph.grow sz = 0) := by
          rintro (hlt | hlt | hz)
          · exact hmem hlt
          · omega
          · exact h0 hz
        rw [if_neg hcond] at hin ⊢
        have hreached : (⟨ph, ph.grow sz⟩ : Segment).Reached m₀.freelist.length := by
          have hlen : m₀.freelist.length = m₁.freelist.length + 13 + pgup (ph.grow sz) := h₁.length
          show 13 + pgup (ph.grow sz) ≤ _
          omega
        have hseg : (⟨ph, ph.grow sz⟩ : Segment).Inside ip :=
          hin _ (by split_ifs <;> exact List.mem_cons_self) hreached
        refine Wp.bind ((load_spec ⟨ph, ph.grow sz⟩ h₁ hseg).mono (fun _ _ hr => hr) ?_) ?_
        · rintro e _ ⟨rfl, hpage⟩
          refine ⟨rfl, fun hal => hpage (hal ⟨ph, ph.grow sz⟩ ?_ hreached)⟩
          split_ifs <;> exact List.mem_cons_self
        rintro b m₂ ⟨hpage, ⟨rfl, hfile, h₂⟩ | ⟨rfl, hfile, c', h₂⟩⟩
        · rw [if_pos rfl]
          rw [if_pos hfile] at hin ⊢
          refine (ih h₂ fun x hx => hin x (List.mem_cons_of_mem _ hx)).mono ?_ ?_
          · rintro r m' ⟨hres, hal⟩
            refine ⟨?_, fun x hx hr => ?_⟩
            · cases hres with
              | done hsize h' => exact .done hsize h'
              | bad hsize h' => exact .bad hsize h'
            · rcases List.mem_cons.mp hx with rfl | hx
              · exact hpage
              · exact hal x hx hr
          · rintro e _ ⟨rfl, hal⟩
            exact ⟨rfl, fun hall => hal fun x hx => hall x (List.mem_cons_of_mem _ hx)⟩
        · rw [if_neg Bool.false_ne_true, if_neg hfile]
          refine wp_pure.mpr ⟨.bad (fun _ => hbad) h₂, fun x hx _ => ?_⟩
          rw [List.mem_singleton] at hx
          exact hx ▸ hpage
      · rw [if_pos rfl]
        by_cases hcond : ph.memsz < ph.filesz ∨ usertop < (ph.va + ph.memsz).toNat ∨ ph.grow sz = 0
        · rw [if_pos hcond]
          exact wp_pure.mpr ⟨.bad (fun _ => hbad) h₁, hnone⟩
        -- memory is too short for the segment, and so for all that follow
        rw [if_neg hcond]
        obtain ⟨hle, hlt⟩ := hshort (by omega)
        have hlen := h.length
        have hfew : ∀ {top}, ph.grow sz ≤ top → m₀.freelist.length < 13 + pgup top := by
          intro top hgrow
          have hmono := pgup_mono ((le_max_right sz _).trans hgrow)
          omega
        refine wp_pure.mpr ⟨.bad (fun top hsize => hfew ?_) h₁, fun x hx hr => absurd hr (not_le.mpr (hfew ?_))⟩
        · split_ifs at hsize
          exact le_of_plan hsize
        · split_ifs at hx
          · rcases List.mem_cons.mp hx with rfl | hx
            · exact le_rfl
            · exact le_of_mem_plan hx
          · rw [List.mem_singleton] at hx
            exact hx ▸ le_rfl

end NewSpace

end OperatingSystems.CowFork
