import OperatingSystems.CowFork.Exec
import OperatingSystems.Lib.Words

/-! # A new address space

`exec` builds the image of a program in a new directory. `NewSpace` says that the directory has the user
pages below `n`, all of its own, and that they read as the array `c`, while nothing else has changed. So the
image is an array of bytes, and each function of `vm.c` that `exec` calls is an operation on it:

* `NewSpace.allocuvm_spec`: more zeros, or nothing when memory is short.
* `NewSpace.loaduvm_spec`, `NewSpace.copyout_spec`: a list of bytes is laid over the array.
* `NewSpace.copyout_kernel`: nothing, for an address of the kernel. -/

namespace OperatingSystems.CowFork

open Lib.WeakestPre Lib.Overlay Lib.Words Processes

variable {L : Layout} {N : Prop} {m₀ m m' : Mem} {D K : Finset ℕ} {d n v a o : ℕ} {c : ℕ → BitVec 8}
  {bytes : List (BitVec 8)}

/-- **The directory `d` of an image under construction**, since memory `m₀`. -/
structure NewSpace (L : Layout) (N : Prop) (m₀ m : Mem) (D K : Finset ℕ) (d n : ℕ) (c : ℕ → BitVec 8) : Prop where
  inv : Inv L N m (insert d D) K
  notLive : d ∉ D
  framed : Framed L m₀ m D K
  bound : n ≤ 160
  given : ∀ v < n, Given (entry m d v)
  empty : ∀ v < 160, n ≤ v → ¬ present (entry m d v)
  reads : ∀ a < n * 4096, m.byte (pageOf (entry m d (a / 4096))) (a % 4096) = c a
  zero : ∀ a, n * 4096 ≤ a → c a = 0#8
  tables : ∀ v < 2 ^ 20, InKmap v → present (m.word d (v / 1024))
  supervisor : ∀ v < 2 ^ 20, 160 ≤ v → present (entry m d v) → OfKernel v (entry m d v)
  length : m₀.freelist.length = m.freelist.length + 13 + n

/-- The directory that `setupkvm` makes. -/
theorem Laid.newSpace (h : Laid L N m₀ m D K d (2 ^ 20)) : NewSpace L N m₀ m D K d 0 fun _ => 0#8 where
  inv := h.newDir.inv
  notLive := h.apart.notLive
  framed := h.framed
  bound := Nat.zero_le _
  given v hv := absurd hv (Nat.not_lt_zero v)
  empty v hv _ := h.apart.empty v hv
  reads a ha := absurd ha (by omega)
  zero _ _ := rfl
  tables v hv hk := h.laid v hv hk
  supervisor v hv _ := h.supervisor v hv
  length := by rw [h.length, h.card]

namespace NewSpace

theorem live (_ : NewSpace L N m₀ m D K d n c) : d ∈ insert d D := Finset.mem_insert_self _ _

theorem erase (h : NewSpace L N m₀ m D K d n c) : (insert d D).erase d = D := Finset.erase_insert h.notLive

/-- Pages of the directory came or went; the rest is as before. -/
theorem of_filled {lo hi k : ℕ} {x : Option (ℕ → BitVec 8)} {P : Word → Prop} (h : NewSpace L N m₀ m D K d n c)
    (hf : Filled L N m m' (insert d D) K d lo hi x P) (hlo : n ≤ lo) (hhi : hi ≤ 160) (hk : k ≤ 160) (hnk : n ≤ k)
    (hgiven : ∀ v, n ≤ v → v < k → Given (entry m' d v)) (hempty : ∀ v < 160, k ≤ v → ¬ present (entry m' d v))
    (hzero : ∀ v, n ≤ v → v < k → m'.byte (pageOf (entry m' d v)) = fun _ => 0)
    (hlen : m.freelist.length = m'.freelist.length + (k - n)) : NewSpace L N m₀ m' D K d k c := by
  have hold : ∀ v < n, entry m' d v = entry m d v := by
    intro v hv
    have hent := hf.entries.2 v (by have := h.bound; omega)
    rwa [if_neg (by omega)] at hent
  constructor
  case inv => exact hf.inv
  case notLive => exact h.notLive
  case framed =>
    have hframe := hf.framed
    rw [h.erase] at hframe
    exact h.framed.trans hframe
  case bound => exact hk
  case given =>
    intro v hv
    by_cases hvn : v < n
    · rw [hold v hvn]
      exact h.given v hvn
    · exact hgiven v (by omega) hv
  case empty => exact hempty
  case reads =>
    intro a ha
    by_cases han : a < n * 4096
    · have hv : a / 4096 < n := by omega
      have himg := hf.images d h.live (a / 4096) (by have := h.bound; omega)
      have hp := (h.given _ hv).1
      rw [if_neg (by omega), image_of_present hp, image_of_present (by rwa [hold _ hv]), hold _ hv] at himg
      rw [hold _ hv, Option.some.inj himg]
      exact h.reads a han
    · rw [hzero (a / 4096) (by omega) (by omega), h.zero a (by omega)]
      rfl
  case zero => exact fun a ha => h.zero a (le_trans (Nat.mul_le_mul_right 4096 hnk) ha)
  case tables =>
    intro v hv hk'
    rw [hf.entries.1 (v / 1024) (by omega)]
    exact h.tables v hv hk'
  case supervisor =>
    intro v hv hlo'
    have hent := hf.entries.2 v hv
    rw [if_neg (by omega)] at hent
    rw [hent]
    exact h.supervisor v hv hlo'
  case length =>
    rw [h.length]
    omega

/-- **`allocuvm`** gives the new directory more pages of zeros. -/
theorem allocuvm_spec {oldsz newsz : ℕ} (h : NewSpace L N m₀ m D K d (pgup oldsz) c) :
    Wp (allocuvm L d oldsz newsz) (fun r m' =>
      (r = max oldsz newsz ∧ newsz ≤ usertop ∧ pgup newsz - pgup oldsz ≤ m.freelist.length ∧
        NewSpace L N m₀ m' D K d (pgup (max oldsz newsz)) c) ∨
      r = 0 ∧ (newsz ≤ usertop → oldsz ≤ newsz ∧ m.freelist.length < pgup newsz - pgup oldsz) ∧
        NewSpace L N m₀ m' D K d (pgup oldsz) c) (fun _ _ => False) m := by
  have hlive := h.live
  refine (h.inv.allocuvm_frame hlive).mono ?_ ?_
  · rintro r m' ⟨-, ⟨hr, rfl, hgt⟩ | ⟨hr, -, hle, hlen, hf⟩ | ⟨hr, -, hlt, hge, hle, hf⟩⟩
    · exact .inr ⟨hr, fun hle => absurd hle (by omega), h⟩
    · refine .inl ⟨hr, hle, by omega, ?_⟩
      have htop := pgup_le hle
      have hmax : pgup (max oldsz newsz) = max (pgup oldsz) (pgup newsz) := by
        rcases le_total oldsz newsz with h' | h'
        · rw [max_eq_right h', max_eq_right (pgup_mono h')]
        · rw [max_eq_left h', max_eq_left (pgup_mono h')]
      have hbound := h.bound
      refine h.of_filled hf le_rfl htop (by omega) (by omega) (fun v hlo hv => ?_) (fun v hv hlo => ?_)
        (fun v hlo hv => ?_) (by omega)
      · have hent := hf.entries.2 v (by omega)
        rwa [if_pos (by omega)] at hent
      · have hent := hf.entries.2 v (by omega)
        rw [if_neg (by omega)] at hent
        rw [hent]
        exact h.empty v hv (by omega)
      · have hent := hf.entries.2 v (by omega)
        rw [if_pos (by omega)] at hent
        have himg := hf.images d hlive v (by omega)
        rw [if_pos ⟨rfl, by omega, by omega⟩, image_of_present hent.1] at himg
        exact Option.some.inj himg
    · refine .inr ⟨hr, fun _ => ⟨hge, hlt⟩, ?_⟩
      have htop := pgup_le hle
      have hmap := hf.sameMap hlive (fun _ _ _ => rfl) (fun v _ hlo hhi => h.empty v (by omega) hlo)
        (fun _ _ => rfl) .refl
      obtain ⟨-, -, hfree⟩ := h.inv.counts_eq hf.inv hmap.holds_eq
      rw [h.inv.freePages, hf.inv.freePages] at hfree
      refine h.of_filled hf le_rfl htop h.bound le_rfl (fun v hlo hv => by omega) (fun v hv hlo => ?_)
        (fun v hlo hv => by omega) (by omega)
      have hent := hf.entries.2 v (by omega)
      split_ifs at hent with hin
      · exact hent
      · rw [hent]
        exact h.empty v hv hlo
  · rintro e _ ⟨-, v, hlo, hhi, hle, himg⟩
    have := pgup_le hle
    exact himg (image_eq_none.mpr (h.empty v (by omega) hlo))

/-- **Bytes are written** to a page of the image. -/
theorem setBytes (o : ℕ) (bytes : List (BitVec 8)) (h : NewSpace L N m₀ m D K d n c) (hv : v < n) (ho : o + bytes.length ≤ 4096) :
    NewSpace L N m₀ (m.setBytes (pageOf (entry m d v)) o bytes) D K d n (lay c (v * 4096 + o) bytes) := by
  have hend : v * 4096 + o + bytes.length ≤ n * 4096 := by omega
  have hin : ∀ a, a / 4096 < v → a < v * 4096 + o := fun a ha => by omega
  have hout : ∀ a, v < a / 4096 → v * 4096 + o + bytes.length ≤ a := fun a ha => by omega
  obtain ⟨hp, hw, hne⟩ := h.given v hv
  have hbound := h.bound
  have hs := Inv.holds_user_self (K := K) h.live (by omega : v < 160) hp hne
  have hone := h.inv.exclusive (.user d v) _ hw hs
  have hb : ∀ g, g ≠ pageOf (entry m d v) → (m.setBytes (pageOf (entry m d v)) o bytes).byte g = m.byte g :=
    fun g hg => Function.update_of_ne hg _ _
  have hsame := sameTables_of_byte (h.inv.offTables_user hs) hb
  have hent : ∀ u < 2 ^ 20, entry (m.setBytes (pageOf (entry m d v)) o bytes) d u = entry m d u :=
    (hsame d h.live).2
  constructor
  case inv => exact h.inv.of_same hsame h.inv.counted h.inv.outside h.inv.freePages h.inv.exclusive
  case notLive => exact h.notLive
  case framed =>
    have hframe : Framed L m (m.setBytes (pageOf (entry m d v)) o bytes) ((insert d D).erase d) K :=
      .of_byte (h.inv.managed_of_holds hs) (h.inv.not_held_erase hs hone (by simp [holds])) hb
    rw [h.erase] at hframe
    exact h.framed.trans hframe
  case bound => exact hbound
  case given =>
    intro u hu
    rw [hent u (by omega)]
    exact h.given u hu
  case empty =>
    intro u hu
    rw [hent u (by omega)]
    exact h.empty u hu
  case reads =>
    intro a ha
    rw [hent _ (by omega)]
    by_cases hav : a / 4096 = v
    · have hread := h.reads a ha
      rw [hav] at hread ⊢
      have hself : (m.setBytes (pageOf (entry m d v)) o bytes).byte (pageOf (entry m d v)) =
          lay (m.byte (pageOf (entry m d v))) o bytes := Function.update_self ..
      have hsub : a % 4096 - o = a - (v * 4096 + o) := by omega
      have hle : o ≤ a % 4096 ↔ v * 4096 + o ≤ a := by omega
      rw [hself]
      simp only [lay, hread, hsub, hle]
    · have hother := Inv.holds_user_self (K := K) h.live (by omega : a / 4096 < 160) (h.given _ (by omega)).1
        (h.given _ (by omega)).2.2
      rw [hb _ fun heq => ?_, h.reads a ha]
      · rcases Nat.lt_or_gt_of_ne hav with hlt | hgt
        · exact (lay_of_lt (hin a hlt)).symm
        · exact (lay_of_ge (hout a hgt)).symm
      · have hslot := h.inv.unique (s := .user d v) hw hs (heq ▸ hother)
        simp only [Slot.user.injEq, true_and] at hslot
        exact hav hslot.symm
  case zero =>
    intro a ha
    rw [lay_of_ge (hend.trans ha)]
    exact h.zero a ha
  case tables =>
    intro u hu hk
    rw [(hsame d h.live).1 _ (by omega)]
    exact h.tables u hu hk
  case supervisor =>
    intro u hu hlo
    rw [hent u hu]
    exact h.supervisor u hu hlo
  case length => exact h.length

/-! ### copyout -/

/-- The walk to an address below the size. -/
theorem wp_walk {va : ℕ} {E : Panic → Mem → Prop} {Q : Option (ℕ × ℕ) → Mem → Prop}
    (h : NewSpace L N m₀ m D K d n c) (hva : va < n * 4096)
    (hQ : ∀ pte, m.word pte.1 pte.2 = entry m d (va / 4096) → Q (some pte) m) : Wp (walkpgdir d va false) Q E m := by
  have hbound := h.bound
  have hdir : present (m.word d (pdx va)) := by
    rw [show pdx va = 0 by unfold pdx; omega]
    exact h.inv.root d h.live
  exact wp_walkpgdir_present hdir (hQ _ (entry_va (by omega) hdir).symm)

/-- A page below the size is found. -/
theorem wp_uva2ka {va : Word} {E : Panic → Mem → Prop} {Q : ℕ → Mem → Prop} (h : NewSpace L N m₀ m D K d n c)
    (hva : va.toNat < n * 4096) (hQ : Q (pageOf (entry m d (va.toNat / 4096))) m) : Wp (uva2ka d va) Q E m := by
  have hbound := h.bound
  unfold uva2ka
  refine wp_bind.mpr (h.wp_walk hva fun pte hpte => ?_)
  obtain ⟨hp, hw, hne⟩ := h.given (va.toNat / 4096) (by omega)
  have hu := h.inv.userAccess d h.live _ (by omega) hp
  rw [← hpte] at hp hu hQ
  simp only [wp_bind, wp_readPte, wp_ite, wp_pure]
  exact ⟨fun habs => absurd hp habs, fun _ => ⟨fun habs => absurd hu habs, fun _ => hQ⟩⟩

/-- A page that is not the process's is not found. -/
theorem wp_uva2ka_kernel {va : Word} {E : Panic → Mem → Prop} {Q : ℕ → Mem → Prop}
    (h : NewSpace L N m₀ m D K d n c) (hva : 0xFE000000 ≤ va.toNat) (hQ : Q 0 m) : Wp (uva2ka d va) Q E m := by
  have hlt := va.isLt
  have hdir : present (m.word d (pdx va.toNat)) := by
    rw [show pdx va.toNat = va.toNat / 4096 / 1024 by unfold pdx; omega]
    exact h.tables _ (by omega) (.inr (by omega))
  unfold uva2ka
  refine wp_bind.mpr (wp_walkpgdir_present hdir ?_)
  have hsup := h.supervisor (va.toNat / 4096) (by omega) (by omega)
  rw [entry_va va.isLt hdir] at hsup
  simp only [wp_bind, wp_readPte, wp_ite, wp_pure]
  exact ⟨fun _ => hQ, fun hp => ⟨fun _ => hQ, fun hu => absurd (not_not.mp hu) (hsup (not_not.mp hp)).1⟩⟩

theorem toNat_pgdown (va : Word) : (va &&& ~~~0xFFF#32).toNat = va.toNat / 4096 * 4096 := toNat_clear_low va 12

theorem toNat_sub_pgdown (va : Word) : (va - (va &&& ~~~0xFFF#32)).toNat = va.toNat % 4096 := by
  have hle : va &&& ~~~0xFFF#32 ≤ va := by
    rw [BitVec.le_def, toNat_pgdown]
    omega
  rw [BitVec.toNat_sub_of_le hle, toNat_pgdown]
  omega

theorem copyoutLoop_spec {k : ℕ} {va : Word} {buf : List (BitVec 8)} (h : NewSpace L N m₀ m D K d n c)
    (hk : buf.length ≤ k) (hva : va.toNat + buf.length ≤ n * 4096) :
    Wp (copyoutLoop d k va buf) (fun r m' => r = true ∧ NewSpace L N m₀ m' D K d n (lay c va.toNat buf))
      (fun _ _ => False) m := by
  have hbound := h.bound
  induction k generalizing va buf c m with
  | zero =>
    rw [List.eq_nil_of_length_eq_zero (Nat.le_zero.mp hk), lay_nil]
    exact wp_pure.mpr ⟨rfl, h⟩
  | succ k ih =>
    have hdown := toNat_pgdown va
    have hoff := toNat_sub_pgdown va
    rw [copyoutLoop]
    refine wp_ite.mpr ⟨?_, fun hne => ?_⟩
    · rintro rfl
      rw [lay_nil]
      exact wp_pure.mpr ⟨rfl, h⟩
    have hpos : 0 < buf.length := List.length_pos_iff.mpr hne
    have hv : va.toNat / 4096 < n := by omega
    refine wp_bind.mpr (h.wp_uva2ka (by omega) ?_)
    rw [hdown, Nat.mul_div_cancel _ (by omega), if_neg (h.given _ hv).2.2]
    simp only [hoff, wp_bind, wp_modify]
    have hwrite := h.setBytes (va.toNat % 4096) (buf.take (min (4096 - va.toNat % 4096) buf.length)) hv
      (by rw [List.length_take]; omega)
    rw [show va.toNat / 4096 * 4096 + va.toNat % 4096 = va.toNat by omega] at hwrite
    have hnext : ((va &&& ~~~0xFFF#32) + 4096#32).toNat = va.toNat / 4096 * 4096 + 4096 := by
      rw [BitVec.toNat_add, hdown, show (4096#32).toNat = 4096 from rfl]
      exact Nat.mod_eq_of_lt (by omega)
    have hlen : (buf.drop (min (4096 - va.toNat % 4096) buf.length)).length ≤ k := by
      rw [List.length_drop]
      omega
    have hend : ((va &&& ~~~0xFFF#32) + 4096#32).toNat + (buf.drop (min (4096 - va.toNat % 4096) buf.length)).length ≤
        n * 4096 := by
      rw [hnext, List.length_drop]
      omega
    refine (ih hwrite hlen hend).imp ?_
    rintro r m' ⟨hr, h'⟩
    refine ⟨hr, ?_⟩
    have hsplit : lay c va.toNat buf = lay (lay c va.toNat (buf.take (min (4096 - va.toNat % 4096) buf.length)))
        ((va &&& ~~~0xFFF#32) + 4096#32).toNat (buf.drop (min (4096 - va.toNat % 4096) buf.length)) := by
      rcases le_or_gt buf.length (4096 - va.toNat % 4096) with hle | hgt
      · rw [min_eq_right hle, List.take_length, List.drop_length, lay_nil]
      · rw [min_eq_left hgt.le, hnext]
        conv_lhs => rw [← List.take_append_drop (4096 - va.toNat % 4096) buf, lay_append, List.length_take]
        rw [show va.toNat + min (4096 - va.toNat % 4096) buf.length = va.toNat / 4096 * 4096 + 4096 by omega]
    rwa [hsplit]

/-- **`copyout`** below the size lays the bytes over the image. -/
theorem copyout_spec {va : Word} {buf : List (BitVec 8)} (h : NewSpace L N m₀ m D K d n c)
    (hva : va.toNat + buf.length ≤ n * 4096) :
    Wp (copyout d va buf) (fun r m' => r = true ∧ NewSpace L N m₀ m' D K d n (lay c va.toNat buf))
      (fun _ _ => False) m := h.copyoutLoop_spec le_rfl hva

/-- `copyout` to the top of the address space does nothing. -/
theorem copyout_kernel {va : Word} {buf : List (BitVec 8)} (h : NewSpace L N m₀ m D K d n c) (hbuf : buf ≠ [])
    (hva : 0xFE000000 ≤ va.toNat) :
    Wp (copyout d va buf) (fun r m' => r = false ∧ m' = m) (fun _ _ => False) m := by
  have hdown := toNat_pgdown va
  obtain ⟨k, hk⟩ := Nat.exists_eq_succ_of_ne_zero (List.length_pos_iff.mpr hbuf).ne'
  unfold copyout
  rw [hk, copyoutLoop, if_neg hbuf]
  refine wp_bind.mpr (h.wp_uva2ka_kernel (by omega) ?_)
  rw [if_pos rfl]
  exact wp_pure.mpr ⟨rfl, rfl⟩

end NewSpace

/-! ### loaduvm -/

namespace Processes

/-- The bytes of a file that a program header asks for. -/
def File.slice (ip : File) (off n : ℕ) : List (BitVec 8) := (ip.data.drop off).take n

theorem readi_eq (ip : File) (off n : Word) : readi ip off n =
    if off.toNat ≤ ip.data.length ∧ off.toNat + n.toNat < 2 ^ 32 then some (ip.slice off.toNat n.toNat) else none := by
  have hlt := ip.size_lt
  have hsize : ip.size.toNat = ip.data.length := by
    rw [File.size, BitVec.toNat_ofNat, Nat.mod_eq_of_lt hlt]
  have hadd := BitVec.toNat_add off n
  have hoff := off.isLt
  have hn := n.isLt
  unfold readi
  simp only [gt_iff_lt, BitVec.lt_def, hsize]
  by_cases hfail : ip.data.length < off.toNat ∨ (off + n).toNat < off.toNat
  · rw [if_pos hfail, if_neg (by omega)]
  · have hcond : off.toNat ≤ ip.data.length ∧ off.toNat + n.toNat < 2 ^ 32 := by omega
    rw [if_neg hfail, if_pos hcond]
    congr 1
    split_ifs with hgt
    · have hle : off ≤ ip.size := by
        rw [BitVec.le_def, hsize]
        omega
      rw [File.slice, BitVec.toNat_sub_of_le hle, hsize, List.take_of_length_le (by rw [List.length_drop]),
        List.take_of_length_le (by rw [List.length_drop]; omega)]
    · rfl

theorem File.length_slice (ip : File) (off n : ℕ) : (ip.slice off n).length = min n (ip.data.length - off) := by
  rw [File.slice, List.length_take, List.length_drop]

/-- The pages that `loaduvm` copies to begin below `top`. It stops where the file ends. -/
def StaysBelow (ip : File) (addr offset sz : Word) (top : ℕ) : Prop :=
  ∀ i < sz.toNat, i % 4096 = 0 → i = 0 ∨ offset.toNat + i ≤ ip.data.length → addr.toNat + i < top

theorem File.slice_add (ip : File) (off i n : ℕ) : ip.slice off (i + n) = ip.slice off i ++ ip.slice (off + i) n := by
  rw [slice, slice, slice, List.take_add, List.drop_drop]

end Processes

namespace NewSpace

theorem store_spec (cur v : ℕ) (bytes : List (BitVec 8)) (h : NewSpace L N m₀ m D K d n c) (hv : v < n) (hlen : bytes.length ≤ 4096) :
    Wp (store cur (pageOf (entry m d v)) bytes)
      (fun _ m' => NewSpace L N m₀ m' D K d n (lay c (v * 4096) bytes)) (fun _ _ => False) m := by
  unfold store
  refine wp_ite.mpr ⟨?_, fun _ => wp_bind.mpr ((wp_target (h.given v hv).2.2).mpr (wp_modify.mpr ?_))⟩
  · rintro rfl
    rw [lay_nil]
    exact wp_pure.mpr h
  · have hwrite := h.setBytes 0 bytes hv (by rwa [Nat.zero_add])
    rwa [Nat.add_zero] at hwrite

/-- The rounds of `loaduvm`, after `j` of them. -/
theorem loaduvmLoop_spec {k j cur : ℕ} {addr offset sz i : Word} {ip : File}
    (h : NewSpace L N m₀ m D K d n (lay c addr.toNat (ip.slice offset.toNat (min (j * 4096) sz.toNat))))
    (hi : i.toNat = j * 4096) (hk : j + k = pgup sz.toNat) (haddr : addr.toNat % 4096 = 0)
    (hin : StaysBelow ip addr offset sz (n * 4096))
    (hread : j = 0 ∨ offset.toNat + min (j * 4096) sz.toNat ≤ ip.data.length) :
    Wp (loaduvmLoop cur d addr ip offset sz k i) (fun r m' =>
      (r = true ∧ (sz.toNat = 0 ∨ offset.toNat + sz.toNat ≤ ip.data.length) ∧
        NewSpace L N m₀ m' D K d n (lay c addr.toNat (ip.slice offset.toNat sz.toNat))) ∨
      r = false ∧ ip.data.length < offset.toNat + sz.toNat ∧ ∃ c', NewSpace L N m₀ m' D K d n c')
      (fun _ _ => False) m := by
  have hbound := h.bound
  have hsize := ip.size_lt
  unfold pgup at hk
  induction k generalizing j i m with
  | zero =>
    have hmin : min (j * 4096) sz.toNat = sz.toNat := by omega
    rw [hmin] at h hread
    exact wp_pure.mpr (.inl ⟨rfl, hread.imp_left (by omega), h⟩)
  | succ k ih =>
    have hj : j * 4096 < sz.toNat := by omega
    rw [min_eq_left hj.le] at h hread
    have hbelow := hin (j * 4096) hj (by omega) (hread.imp_left (by omega))
    have hva : (addr + i).toNat = addr.toNat + j * 4096 := by
      rw [BitVec.toNat_add, hi]
      exact Nat.mod_eq_of_lt (by omega)
    rw [loaduvmLoop]
    refine wp_bind.mpr (h.wp_walk (by omega) fun pte hpte => wp_bind.mpr (wp_readPte.mpr ?_))
    rw [hpte, hva]
    have hn : (if sz - i < 4096#32 then sz - i else 4096#32 : Word).toNat = min (sz.toNat - j * 4096) 4096 := by
      have hle : i ≤ sz := by
        rw [BitVec.le_def]
        omega
      have hsub : (sz - i).toNat = sz.toNat - j * 4096 := by rw [BitVec.toNat_sub_of_le hle, hi]
      have h4096 : (4096#32).toNat = 4096 := rfl
      split_ifs with hlt
      · rw [BitVec.lt_def, hsub, h4096] at hlt
        rw [hsub]
        omega
      · rw [BitVec.lt_def, hsub, h4096] at hlt
        rw [h4096]
        omega
    generalize (if sz - i < 4096#32 then sz - i else 4096#32 : Word) = n₁ at hn
    simp only [readi_eq]
    by_cases hcond : (offset + i).toNat ≤ ip.data.length ∧ (offset + i).toNat + n₁.toNat < 2 ^ 32
    swap
    · rw [if_neg hcond]
      refine wp_pure.mpr (.inr ⟨rfl, ?_, _, h⟩)
      rw [BitVec.toNat_add, hi] at hcond
      have := offset.isLt
      omega
    rw [if_pos hcond]
    have hoff : (offset + i).toNat = offset.toNat + j * 4096 := by
      rw [BitVec.toNat_add, hi]
      refine Nat.mod_eq_of_lt ?_
      rcases hread with rfl | hread
      · have := offset.isLt
        omega
      · omega
    rw [hoff, hn] at hcond ⊢
    have hlen := ip.length_slice (offset.toNat + j * 4096) (min (sz.toNat - j * 4096) 4096)
    have hwrite := h.store_spec cur ((addr.toNat + j * 4096) / 4096)
      (ip.slice (offset.toNat + j * 4096) (min (sz.toNat - j * 4096) 4096)) (by omega) (by rw [hlen]; omega)
    refine (hwrite.mono (fun _ _ hr => hr) fun _ _ => False.elim).bind fun _ m₁ h₁ => wp_ite.mpr ?_
    rw [hlen]
    refine ⟨fun hshort => wp_pure.mpr (.inr ⟨rfl, by omega, _, h₁⟩), fun hfull => ?_⟩
    have hi' : (i + 4096#32).toNat = (j + 1) * 4096 := by
      rw [BitVec.toNat_add, hi, show (4096#32).toNat = 4096 from rfl]
      omega
    have hnext : lay (lay c addr.toNat (ip.slice offset.toNat (j * 4096))) ((addr.toNat + j * 4096) / 4096 * 4096)
        (ip.slice (offset.toNat + j * 4096) (min (sz.toNat - j * 4096) 4096)) =
        lay c addr.toNat (ip.slice offset.toNat (min ((j + 1) * 4096) sz.toNat)) := by
      have hplace : (addr.toNat + j * 4096) / 4096 * 4096 =
          addr.toNat + min (j * 4096) (ip.data.length - offset.toNat) := by omega
      rw [show min ((j + 1) * 4096) sz.toNat = j * 4096 + min (sz.toNat - j * 4096) 4096 by omega, ip.slice_add,
        lay_append, ip.length_slice, hplace]
    rw [hnext] at h₁
    exact ih h₁ hi' (by omega) (.inr (by omega))

/-- **`loaduvm`** lays the bytes that the file has for a segment over the image. -/
theorem loaduvm_spec {cur : ℕ} {addr offset sz : Word} {ip : File} (h : NewSpace L N m₀ m D K d n c)
    (haddr : addr.toNat % 4096 = 0) (hin : StaysBelow ip addr offset sz (n * 4096)) :
    Wp (loaduvm cur d addr ip offset sz) (fun r m' =>
      (r = true ∧ (sz.toNat = 0 ∨ offset.toNat + sz.toNat ≤ ip.data.length) ∧
        NewSpace L N m₀ m' D K d n (lay c addr.toNat (ip.slice offset.toNat sz.toNat))) ∨
      r = false ∧ ip.data.length < offset.toNat + sz.toNat ∧ ∃ c', NewSpace L N m₀ m' D K d n c')
      (fun _ _ => False) m := by
  have hnil : lay c addr.toNat (ip.slice offset.toNat (min (0 * 4096) sz.toNat)) = c := by
    rw [show min (0 * 4096) sz.toNat = 0 by omega, File.slice, List.take_zero, lay_nil]
  unfold loaduvm
  rw [if_neg (not_not.mpr haddr)]
  exact loaduvmLoop_spec (j := 0) (by rwa [hnil]) rfl (Nat.zero_add _) haddr hin (.inl rfl)

end NewSpace

end OperatingSystems.CowFork
