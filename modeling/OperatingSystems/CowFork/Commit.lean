import OperatingSystems.CowFork.Arguments

/-! # What exec comes to

`exec_spec`: the call is refused, fails and gives everything back, or commits to the new image. -/

namespace OperatingSystems.CowFork

open Lib.WeakestPre Lib.Overlay

variable {L : Layout} {N : Prop} {m₀ m m' : Mem} {D K E : Finset ℕ} {d n a : ℕ} {c : ℕ → BitVec 8}
  {bytes : List (BitVec 8)}

/-! ### What a process reads -/

/-- The byte at address `a` of an address space. -/
def userByte (m : Mem) (d a : ℕ) : Option (BitVec 8) := (image m d (a / 4096)).map fun page => page (a % 4096)

/-- The list is in the address space from address `a` on. -/
def Shows (m : Mem) (d a : ℕ) (bytes : List (BitVec 8)) : Prop :=
  ∀ i (h : i < bytes.length), userByte m d (a + i) = some bytes[i]

/-- An entry of the address space has page 0. -/
def HasNull (m : Mem) (d : ℕ) : Prop := ∃ v < 160, present (entry m d v) ∧ pageOf (entry m d v) = 0

namespace NewSpace

theorem userByte_eq (h : NewSpace L N m₀ m D K d n c) (hf : Framed L m m' E K) (hd : d ∈ E) (ha : a < n * 4096) :
    userByte m' d a = some (c a) := by
  have hbound := h.bound
  have hp := (h.given (a / 4096) (by omega)).1
  rw [userByte, hf.kept d hd (a / 4096) (by omega), image_of_present hp, Option.map_some, h.reads a ha]

theorem shows (h : NewSpace L N m₀ m D K d n c) (hf : Framed L m m' E K) (hd : d ∈ E)
    (ha : a + bytes.length ≤ n * 4096) (hc : At c a bytes) : Shows m' d a bytes := by
  intro i hi
  rw [h.userByte_eq hf hd (by omega), hc i hi]

/-- A new address space is given back. -/
theorem freevm_spec (h : NewSpace L N m₀ m D K d n c) :
    Wp (freevm L d) (fun _ m' => Inv L N m' D K ∧ Framed L m₀ m' D K) (fun _ _ => False) m := by
  refine (h.inv.freevm_frame h.live).mono ?_ ?_
  · rintro _ m' ⟨hinv, hframe, -⟩
    rw [h.erase] at hinv hframe
    exact ⟨hinv, h.framed.trans hframe⟩
  · rintro e _ ⟨-, v, hv, hp, h0⟩
    by_cases hn : v < n
    · exact (h.given v hn).2.2 h0
    · exact h.empty v hv (by omega) hp

end NewSpace

namespace Inv

/-- Where `deallocuvm` gets through, no entry has page 0. -/
theorem deallocuvmLoop_null {v k : ℕ} (h : Inv L N m D K) (hd : d ∈ D) (hv : v + k ≤ 160) :
    Wp (deallocuvmLoop L d k v) (fun _ _ => ∀ u, v ≤ u → u < v + k → present (entry m d u) → pageOf (entry m d u) ≠ 0)
      (fun _ _ => True) m := by
  induction k generalizing v m with
  | zero => exact wp_pure.mpr fun u h1 h2 => absurd h2 (by omega)
  | succ k ih =>
    rw [deallocuvmLoop]
    refine wp_bind.mpr (h.wp_walk hd (by omega) ?_)
    simp only [wp_bind, wp_readPte, wp_ite, wp_throw, ← h.entry_user hd (by omega : v < 160)]
    refine ⟨fun hp => ⟨fun _ => trivial, fun hne => ?_⟩, fun hp => ?_⟩
    · rw [← wp_bind, ← bind_assoc]
      refine wp_bind.mpr (h.unmapRound hd (by omega) hp hne fun m₁ hput _ => ?_)
      refine (ih hput.inv (by omega)).imp fun _ _ hall u h1 h2 hu => ?_
      rcases eq_or_ne u v with rfl | huv
      · exact hne
      · have hent := (hput.tables d hd).2 u (by omega)
        rw [if_neg (by omega)] at hent
        rw [← hent] at hu ⊢
        exact hall u (by omega) (by omega) hu
    · refine (ih h (by omega)).imp fun _ _ hall u h1 h2 hu => ?_
      rcases eq_or_ne u v with rfl | huv
      · exact absurd hu hp
      · exact hall u (by omega) (by omega) hu

theorem deallocuvm_null {oldsz newsz : ℕ} (h : Inv L N m D K) (hd : d ∈ D) (hsz : oldsz ≤ usertop) :
    Wp (deallocuvm L d oldsz newsz) (fun _ _ => newsz < oldsz → ∀ v, pgup newsz ≤ v → v < pgup oldsz →
      present (entry m d v) → pageOf (entry m d v) ≠ 0) (fun _ _ => True) m := by
  unfold deallocuvm
  rw [wp_ite, wp_pure]
  refine ⟨fun hge hlt => by omega, fun hlt => ?_⟩
  have hmono : pgup newsz ≤ pgup oldsz := pgup_mono (by omega)
  have htop := pgup_le hsz
  refine (h.deallocuvmLoop_null hd (by omega : pgup newsz + (pgup oldsz - pgup newsz) ≤ 160)).bind fun _ _ hall => ?_
  exact wp_pure.mpr fun _ v hlo hhi => hall v hlo (by omega)

/-- **`freevm`** gets through an address space without page 0 only. -/
theorem freevm_null (h : Inv L N m D K) (hd : d ∈ D) :
    Wp (freevm L d) (fun _ _ => ¬ HasNull m d) (fun _ _ => True) m := by
  have hdealloc : Wp (deallocuvm L d usertop 0) (fun _ _ => ¬ HasNull m d) (fun _ _ => True) m := by
    refine (h.deallocuvm_null hd le_rfl).imp fun _ _ hall => ?_
    rintro ⟨v, hv, hp, h0⟩
    exact hall (by decide) v (Nat.zero_le _) hv hp h0
  unfold freevm
  rw [if_neg (ne_zero_of_managed (h.managed_of_holds (holds_dir_self hd)))]
  exact hdealloc.bind fun _ _ hno => Wp.trivial.mono (fun _ _ _ => hno) fun _ _ _ => trivial

end Inv

end OperatingSystems.CowFork

namespace OperatingSystems.CowFork.Processes

open Lib.WeakestPre Lib.Overlay ProcTable

variable {L : Layout} {N : Prop} {s t : State} {p : Fin nproc} {D K : Finset ℕ} {ip : File} {argv : List Bytes}

/-- The first bytes of a file as the header that `exec` reads. -/
def File.elf (ip : File) : Elfhdr := .ofBytes ((readi ip 0#32 elfhdrSize).getD [])

/-- The file passes the check of the ELF header. -/
def File.IsElf (ip : File) : Prop := elfhdrSize.toNat ≤ ip.data.length ∧ ip.elf.magic = elfMagic

/-- What `exec` makes of the file. -/
def File.plan (ip : File) : Plan := ip.elf.plan ip

/-- The process that runs a new image. -/
def Proc.runs (q : Proc) (path : Bytes) (d : ℕ) (img : Image) (entry : Word) : Proc :=
  { q with
    name := (lastName path path).take 15
    pgdir := d
    sz := BitVec.ofNat 32 img.sz
    tf := { q.tf with eip := entry, esp := img.sp } }

/-- The image that `exec` commits to, of `n` pages. -/
def imageOf (n : ℕ) (argv : List Bytes) : Image := ⟨n * 4096, BitVec.ofNat 32 (n * 4096 - used argv)⟩

/-- **What `exec` comes to** for a file. -/
inductive Execed (L : Layout) (N : Prop) (s : State) (p : Fin nproc) (D K : Finset ℕ) (ip : File) (path : Bytes)
    (argv : List Bytes) : ℤ → State → Prop where
  /-- no program -/
  | refused (hno : ¬ ip.IsElf) : Execed L N s p D K ip path argv (-1) s
  /-- no memory for the directory -/
  | noDir {m : Mem} (h : Unmade L N s.mem m D K) : Execed L N s p D K ip path argv (-1) { s with mem := m }
  /-- no image, and the new directory is given back -/
  | undone {m : Mem} (hdir : 13 ≤ s.mem.freelist.length) (hal : ip.plan.Aligned s.mem.freelist.length)
      (hno : ¬ Builds ip.plan argv s.mem.freelist.length) (hinv : Inv L N m D K) (hframe : Framed L s.mem m D K) :
      Execed L N s p D K ip path argv (-1) { s with mem := m }
  /-- the new image in `m₁`, and then the old one is given back -/
  | done {m₁ m : Mem} {d n : ℕ} (helf : ip.IsElf) (hal : ip.plan.Aligned s.mem.freelist.length)
      (hpages : ip.plan.pages = some n) (hmax : argv.length ≤ maxarg) (hused : used argv ≤ n * 4096)
      (hnull : ¬ HasNull s.mem (s.proc p).pgdir)
      (h : NewSpace L N s.mem m₁ D K d n (pushAll (ip.plan.load ip fun _ => 0#8) (n * 4096) argv))
      (hinv : Inv L N m ((insert d D).erase (s.proc p).pgdir) K)
      (hframe : Framed L m₁ m ((insert d D).erase (s.proc p).pgdir) K) :
      Execed L N s p D K ip path argv 0 { s with
        mem := m
        proc := Function.update s.proc p ((s.proc p).runs path d (imageOf n argv) ip.elf.entry) }

theorem length_elfhdr (ip : File) :
    ((readi ip 0#32 elfhdrSize).getD []).length < elfhdrSize.toNat ↔ ip.data.length < elfhdrSize.toNat := by
  have hsize : elfhdrSize.toNat = 52 := rfl
  rw [readi_eq, if_pos ⟨Nat.zero_le _, by rw [hsize]; decide⟩, Option.getD_some, File.length_slice, hsize]
  show min 52 (ip.data.length - 0) < 52 ↔ _
  omega

/-- Without a program to run, nothing happens. -/
theorem exec_refused {namei : Bytes → Option File} {path : Bytes} (h : ∀ ip, namei path = some ip → ¬ ip.IsElf) :
    Wp (exec L namei p path argv) (fun r t => r = -1 ∧ t = s) (fun _ _ => False) s := by
  unfold exec
  cases hip : namei path with
  | none => exact wp_pure.mpr ⟨rfl, rfl⟩
  | some ip =>
    simp only [length_elfhdr]
    rw [wp_ite, wp_pure]
    refine ⟨fun _ => ⟨rfl, rfl⟩, fun hok => absurd ?_ (h ip hip)⟩
    exact ⟨not_lt.mp (not_or.mp hok).1, not_not.mp (not_or.mp hok).2⟩

/-- **The call `exec`** for a file whose segments lie inside the image, as far as there is memory for them. -/
theorem exec_spec {namei : Bytes → Option File} {path : Bytes} (h : Inv L N s.mem D K) (hd : (s.proc p).pgdir ∈ D)
    (hip : namei path = some ip) (hin : ip.plan.Inside ip s.mem.freelist.length)
    (hlen : ∀ a ∈ argv, a.length < usertop) :
    Wp (exec L namei p path argv) (Execed L N s p D K ip path argv)
      (fun e _ => e = .loaduvmAlign ∧ ¬ ip.plan.Aligned s.mem.freelist.length ∨
        e = .deallocuvm ∧ HasNull s.mem (s.proc p).pgdir ∧ Builds ip.plan argv s.mem.freelist.length) s := by
  unfold exec
  rw [hip]
  simp only [wp_ite, wp_pure, length_elfhdr]
  refine ⟨fun hno => .refused ?_, fun helf => ?_⟩
  · rintro ⟨hle, hmagic⟩
    rcases hno with hlt | hne
    · omega
    · exact hne hmagic
  obtain ⟨hle, hmagic⟩ := not_or.mp helf
  have helf : ip.IsElf := ⟨not_lt.mp hle, not_not.mp hmagic⟩
  simp only [wp_bind, wp_paging]
  refine (h.setupkvm_laid).mono ?_ fun _ _ => False.elim
  rintro d m₁ (hlaid | ⟨rfl, hun⟩)
  swap
  · rw [if_pos rfl]
    exact wp_pure.mpr (.noDir hun)
  rw [if_neg hlaid.newDir.ne_zero]
  simp only [wp_bind, wp_get, wp_paging]
  refine (hlaid.newSpace.buildImage_spec hin hlen).mono ?_ fun e _ he => .inl he
  rintro r m₂ ⟨⟨hpages, hmax, hused, h₂⟩ | ⟨hno, h₂⟩, hal⟩
  swap
  · simp only [wp_bind, wp_paging, wp_pure]
    have hlen := h₂.length
    refine h₂.freevm_spec.mono ?_ fun _ _ => False.elim
    rintro _ m₃ ⟨hinv, hframe⟩
    exact .undone (by omega) hal hno hinv hframe
  rename_i n
  simp only [modifyProc, wp_bind, wp_modify, wp_paging, wp_pure]
  have hold : (s.proc p).pgdir ∈ insert d D := Finset.mem_insert_of_mem hd
  have hnull : HasNull m₂ (s.proc p).pgdir ↔ HasNull s.mem (s.proc p).pgdir := by
    refine exists_congr fun v => and_congr_right fun hv => ?_
    rw [(h₂.framed.same _ hd).2 v (by omega)]
  refine ((h₂.inv.freevm_frame hold).and (h₂.inv.freevm_null hold)).mono ?_ ?_
  · rintro _ m₃ ⟨⟨hinv, hframe, -⟩, hno⟩
    exact .done helf hal hpages hmax hused (mt hnull.mpr hno) h₂ hinv hframe
  · rintro e m₃ ⟨⟨rfl, hex⟩, -⟩
    have hlen := h₂.length
    exact .inr ⟨rfl, hnull.mp hex, n, hpages, h₂.bound, by omega, hmax, hused⟩

end OperatingSystems.CowFork.Processes
