import OperatingSystems.CowFork.Descriptors
import OperatingSystems.CowFork.Sizes

/-! # What the kernel stores for a process

* `lands`: what a list of writes leaves at a place.
* `Ready`: what holds of the kernel between two calls; `Ready.of_reachable`, `Sized.ready`.
* `Does`: a call writes a list of bytes and changes nothing else that a process sees. The rules `Does.store` and
  `Does.storeBytes` follow the text of a call. -/

namespace OperatingSystems.CowFork

open Lib.WeakestPre Descriptors

variable {L : Layout} {N : Prop} {m m' : Mem} {D K : Finset ℕ} {d f o : ℕ} {ws ws' : List ((ℕ × ℕ) × BitVec 8)}
  {va : Word} {bytes : List (BitVec 8)} {us us' : List (Word × List (BitVec 8))}

/-! ### Lists of writes -/

/-- What the writes leave at a place: the last one counts. -/
def lands (ws : List ((ℕ × ℕ) × BitVec 8)) (f o : ℕ) : Option (BitVec 8) := ws.reverse.lookup (f, o)

theorem lands_append : lands (ws ++ ws') f o = (lands ws' f o).or (lands ws f o) := by
  unfold lands
  rw [List.reverse_append, List.lookup_append]

theorem lands_singleton {w : (ℕ × ℕ) × BitVec 8} : lands [w] f o = if w.1 = (f, o) then some w.2 else none := by
  obtain ⟨a, b⟩ := w
  unfold lands
  rw [List.reverse_singleton, List.lookup_cons, List.lookup_nil]
  by_cases h : a = (f, o)
  · rw [if_pos h, beq_iff_eq.mpr h.symm]
  · rw [if_neg h, beq_false_of_ne (Ne.symm h)]

theorem byte_setAll : (setAll m ws).byte f o = (lands ws f o).getD (m.byte f o) := by
  induction ws using List.reverseRecOn with
  | nil => rfl
  | append_singleton ws w ih =>
    obtain ⟨⟨g, k⟩, b⟩ := w
    have hlast : setAll m (ws ++ [((g, k), b)]) = (setAll m ws).setByte g k b := List.foldl_append
    rw [hlast, lands_append, lands_singleton]
    by_cases hf : g = f
    · subst hf
      by_cases ho : k = o
      · subst ho
        simp [Mem.setByte]
      · rw [if_neg fun h => ho (Prod.mk.inj h).2, Option.none_or, ← ih]
        simp only [Mem.setByte, Function.update_self, Function.update_of_ne (Ne.symm ho)]
    · rw [if_neg fun h => hf (Prod.mk.inj h).1, Option.none_or, Mem.byte_setByte_of_ne (Ne.symm hf), ih]

/-- Writes beside the tables. -/
theorem Inv.setAll (h : Inv L N m D K) (hoff : ∀ w ∈ ws, OffTables m D w.1.1) :
    Inv L N (setAll m ws) D K ∧ SameTables m (Descriptors.setAll m ws) D := by
  induction ws generalizing m with
  | nil => exact ⟨h, .refl⟩
  | cons w ws ih =>
    have hw := hoff w List.mem_cons_self
    have hsame : SameTables m (m.setByte w.1.1 w.1.2 w.2) D :=
      sameTables_of_byte hw fun _ hg => Mem.byte_setByte_of_ne hg
    obtain ⟨h', hs'⟩ := ih (h.setByte hw) fun x hx =>
      (hoff x (List.mem_cons_of_mem _ hx)).of_dirs fun e he j hj => (hsame e he).1 j hj
    exact ⟨h', hsame.trans hs'⟩

theorem Inv.offTables_outside (h : Inv L N m D K) (hf : f ∉ managed L) : OffTables m D f := by
  refine ⟨fun hd => hf (h.managed_of_holds (Inv.holds_dir_self hd)), fun d hd j hj hp heq => hf ?_⟩
  exact heq ▸ h.managed_of_holds (h.holds_table_self hd hj hp)

/-! ### What the hardware makes of a list of stores -/

/-- The writes of stores by the kernel, up to the first one that faults. -/
def reach (m : Mem) (d : ℕ) : List (Word × List (BitVec 8)) → List ((ℕ × ℕ) × BitVec 8)
  | [] => []
  | (va, bytes) :: us => if Reaches m d va bytes.length then placed m d va bytes ++ reach m d us else []

/-- A store for each byte. -/
def bytewise : Word → List (BitVec 8) → List (Word × List (BitVec 8))
  | _, [] => []
  | va, b :: bytes => (va, [b]) :: bytewise (va + 1#32) bytes

theorem page_lt (va : Word) : va.toNat / 4096 < 2 ^ 20 := by
  have := va.isLt
  omega

/-- What the stores come to is in the tables. -/
theorem reach_same (hs : SameTables m m' D) (hd : d ∈ D) : reach m' d us = reach m d us := by
  have hent : ∀ va : Word, entry m' d (va.toNat / 4096) = entry m d (va.toNat / 4096) := fun va =>
    (hs d hd).2 _ (page_lt va)
  have hplace : ∀ va bytes, placed m' d va bytes = placed m d va bytes := by
    intro va bytes
    induction bytes generalizing va with
    | nil => rfl
    | cons b bytes ih => rw [placed, placed, ih, place, place, hent]
  induction us with
  | nil => rfl
  | cons u us ih =>
    obtain ⟨va, bytes⟩ := u
    have hreaches : Reaches m' d va bytes.length ↔ Reaches m d va bytes.length := by
      unfold Reaches
      simp only [hent]
    rw [reach, reach, ih, hplace]
    exact if_congr hreaches rfl rfl

end OperatingSystems.CowFork

namespace OperatingSystems.CowFork.Descriptors

open Lib.WeakestPre Lib.Transition Processes ProcTable

variable {L : Layout} {s t u : Machine} {D K : Finset ℕ} {p : Fin nproc} {va dst : Word} {bytes : List (BitVec 8)}
  {us : List (Word × List (BitVec 8))} {ws ws' : List ((ℕ × ℕ) × BitVec 8)} {α β : Type} {m : Mem}

/-! ### The kernel between two calls -/

/-- Every process has a directory of its own with the kernel part in it, and a file without references is closed. -/
structure Ready (L : Layout) (s : Machine) (D K : Finset ℕ) : Prop where
  inv : Inv L True s.st.mem D K
  dirs : Each s.st Proc.pgdir D
  size : ∀ q, (s.st.proc q).state ≠ .unused → (s.st.proc q).sz.toNat ≤ usertop
  supervised : ∀ q, (s.st.proc q).state ≠ .unused → Supervised s.st.mem (s.st.proc q).pgdir
  closed : ∀ f, s.st.fileRef f = 0 → (s.file f).type = .none

/-- Any run of the paging code leads there. -/
theorem Ready.of_reachable (h : (scarce L).Reachable ⟨s.st.mem, D, K⟩) (hdirs : Each s.st Proc.pgdir D)
    (hsize : ∀ q, (s.st.proc q).state ≠ .unused → (s.st.proc q).sz.toNat ≤ usertop)
    (hclosed : ∀ f, s.st.fileRef f = 0 → (s.file f).type = .none) : Ready L s D K where
  inv := scarce_inv h
  dirs := hdirs
  size := hsize
  supervised q hq := scarce_supervised h _ (hdirs.mem q hq)
  closed := hclosed

namespace Ready

/-- Nothing changes that a process sees. -/
theorem same {K' : Finset ℕ} (h : Ready L s D K) (hsame : SameSpaces s.st t.st) (hinv : Inv L True t.st.mem D K')
    (htab : SameTables s.st.mem t.st.mem D) (hclosed : ∀ f, t.st.fileRef f = 0 → (t.file f).type = .none) :
    Ready L t D K' where
  inv := hinv
  dirs := h.dirs.same fun q => ⟨(hsame q).1, (hsame q).2.2⟩
  size q hq := (hsame q).2.1 ▸ h.size q (mt (hsame q).2.2.mpr hq)
  supervised q hq := by
    have hqs := mt (hsame q).2.2.mpr hq
    exact (hsame q).1 ▸ (h.supervised q hqs).same htab (h.dirs.mem q hqs)
  closed := hclosed

/-- Below 1 MB the kernel stores beside the tables. -/
theorem offTables (h : Ready L s D K) (hp : (s.st.proc p).state ≠ .unused) (hva : va.toNat < 2 ^ 20)
    (hpres : present (entry s.st.mem (s.st.proc p).pgdir (va.toNat / 4096))) :
    OffTables s.st.mem D (place s.st.mem (s.st.proc p).pgdir va).1 := by
  by_cases hv : va.toNat / 4096 < 160
  · exact h.inv.offTables_entry (h.dirs.mem p hp) hv hpres
  · have hpage := (h.supervised p hp _ (page_lt va) (not_lt.mp hv) hpres).2
    refine h.inv.offTables_outside fun hman => ?_
    have hlo : L.kend ≤ pageOf (entry s.st.mem (s.st.proc p).pgdir (va.toNat / 4096)) * 4096 := hman.1
    have := L.text_lt_data
    have := L.data_le_end
    omega

end Ready

theorem toNat_add_one (hva : va.toNat + 1 < 2 ^ 32) : (va + 1#32).toNat = va.toNat + 1 := by
  rw [BitVec.toNat_add]
  exact Nat.mod_eq_of_lt hva

theorem Reaches.cons {n d : ℕ} (h : Reaches m d va (n + 1)) :
    present (entry m d (va.toNat / 4096)) ∧ Reaches m d (va + 1#32) n := by
  refine ⟨?_, fun i hi => ?_⟩
  · have h0 := h 0 (Nat.succ_pos n)
    rwa [BitVec.add_zero] at h0
  · have hi' := h (i + 1) (by omega)
    rwa [show va + 1#32 + BitVec.ofNat 32 i = va + BitVec.ofNat 32 (i + 1) by
      rw [BitVec.add_assoc, BitVec.ofNat_add, BitVec.add_comm (BitVec.ofNat 32 i)]]

theorem Ready.offTables_placed (h : Ready L s D K) (hp : (s.st.proc p).state ≠ .unused)
    (hlt : va.toNat + bytes.length ≤ 2 ^ 20) (hr : Reaches s.st.mem (s.st.proc p).pgdir va bytes.length) :
    ∀ w ∈ placed s.st.mem (s.st.proc p).pgdir va bytes, OffTables s.st.mem D w.1.1 := by
  induction bytes generalizing va with
  | nil => exact fun w hw => by cases hw
  | cons b bytes ih =>
    rw [List.length_cons] at hlt hr
    obtain ⟨hpres, hr'⟩ := hr.cons
    intro w hw
    obtain rfl | hw := List.mem_cons.mp hw
    · exact h.offTables hp (by omega) hpres
    · exact ih (by rw [toNat_add_one (by omega)]; omega) hr' w hw

/-! ### What a call does -/

/-- **The bytes `ws` were written** since `s`, and nothing else that a process sees. -/
structure Effect (L : Layout) (D : Finset ℕ) (s t : Machine) (ws : List ((ℕ × ℕ) × BitVec 8)) : Prop where
  ready : ∃ K, Ready L t D K
  spaces : SameSpaces s.st t.st
  tables : SameTables s.st.mem t.st.mem D
  bytes : ∀ e ∈ D, ∀ v < 160, present (entry s.st.mem e v) → ∀ o, t.st.mem.byte (pageOf (entry s.st.mem e v)) o =
    (lands ws (pageOf (entry s.st.mem e v)) o).getD (s.st.mem.byte (pageOf (entry s.st.mem e v)) o)

namespace Effect

theorem refl (h : Ready L s D K) : Effect L D s s [] := ⟨⟨K, h⟩, .of_proc rfl, .refl, fun _ _ _ _ _ _ => rfl⟩

theorem trans (h : Effect L D s t ws) (h' : Effect L D t u ws') : Effect L D s u (ws ++ ws') := by
  refine ⟨h'.ready, h.spaces.trans h'.spaces, h.tables.trans h'.tables, fun e he v hv hp o => ?_⟩
  have hent := (h.tables e he).2 v (by omega)
  have hbyte := h'.bytes e he v hv (hent ▸ hp) o
  rw [hent, h.bytes e he v hv hp o] at hbyte
  rw [hbyte, lands_append]
  cases lands ws' (pageOf (entry s.st.mem e v)) o <;> rfl

/-- Nothing is written. -/
theorem of_byte {K' : Finset ℕ} (h : Ready L t D K') (hsame : SameSpaces s.st t.st)
    (htab : SameTables s.st.mem t.st.mem D)
    (hbyte : ∀ e ∈ D, ∀ v < 160, present (entry s.st.mem e v) → t.st.mem.byte (pageOf (entry s.st.mem e v)) =
      s.st.mem.byte (pageOf (entry s.st.mem e v))) : Effect L D s t [] :=
  ⟨⟨K', h⟩, hsame, htab, fun e he v hv hp o => congrFun (hbyte e he v hv hp) o⟩

end Effect

/-- Where a call goes on writes below the size, or not far above it. -/
def Pending.Inside (sz : Word) : Pending → Prop
  | .pipe _ addr n => addr.toNat + n.toInt.toNat ≤ sz.toNat
  | .console _ dst n _ => dst.toNat + n ≤ sz.toNat
  | .block _ dst _ left _ => dst.toNat + left ≤ sz.toNat + maxfile * bsize

/-- **What a call by `p` does**, up to where it returns or sleeps or stops. -/
def Does (L : Layout) (D : Finset ℕ) (p : Fin nproc) (c : Syscall α) (s : Machine) (ws : List ((ℕ × ℕ) × BitVec 8)) :
    Prop :=
  Wp c (fun _ t => Effect L D s t ws)
    (fun e t => Effect L D s t ws ∧ ∀ k, e = .sleep k → k.Inside (s.st.proc p).sz) s

namespace Does

theorem pure {a : α} (h : Ready L s D K) : Does L D p (Pure.pure a) s [] := wp_pure.mpr (.refl h)

theorem throw {e : Break} (h : Ready L s D K) (he : ∀ k, e = .sleep k → k.Inside (s.st.proc p).sz) :
    Does L D p (MonadExcept.throw e : Syscall α) s [] := wp_throw.mpr ⟨.refl h, he⟩

/-- The rest of a call. -/
theorem from_effect {c : Syscall α} (he : Effect L D s t ws) (h : Does L D p c t ws') :
    Wp c (fun _ u => Effect L D s u (ws ++ ws'))
      (fun e u => Effect L D s u (ws ++ ws') ∧ ∀ k, e = .sleep k → k.Inside (s.st.proc p).sz) t := by
  refine h.mono (fun _ u hu => he.trans hu) fun e u hu => ⟨he.trans hu.1, fun k hk => ?_⟩
  rw [← (he.spaces p).2.1]
  exact hu.2 k hk

/-- **The rule of a store.** -/
theorem store {f : Unit → Syscall α} (h : Ready L s D K) (hp : (s.st.proc p).state ≠ .unused)
    (hlt : va.toNat + bytes.length ≤ 2 ^ 20)
    (hrest : ∀ m, Ready L { s with st := { s.st with mem := m } } D K →
      Does L D p (f ()) { s with st := { s.st with mem := m } } (reach m (s.st.proc p).pgdir us)) :
    Does L D p (kernelStore p va bytes >>= f) s (reach s.st.mem (s.st.proc p).pgdir ((va, bytes) :: us)) := by
  unfold Does kernelStore
  simp only [wp_bind, wp_get, wp_ite, wp_set, wp_throw]
  rw [reach]
  refine ⟨fun hr => ?_, fun hno => ?_⟩
  · rw [if_pos hr]
    obtain ⟨hinv, htab⟩ := h.inv.setAll (h.offTables_placed hp hlt hr)
    have hready : Ready L
        { s with st := { s.st with mem := setAll s.st.mem (placed s.st.mem (s.st.proc p).pgdir va bytes) } } D K :=
      h.same (.of_proc rfl) hinv htab h.closed
    have heff : Effect L D s _ (placed s.st.mem (s.st.proc p).pgdir va bytes) :=
      ⟨⟨K, hready⟩, .of_proc rfl, htab, fun _ _ _ _ _ _ => byte_setAll⟩
    have hdoes := hrest _ hready
    rw [reach_same htab (h.dirs.mem p hp)] at hdoes
    exact from_effect heff hdoes
  · rw [if_neg hno]
    exact ⟨.refl h, fun k hk => by cases hk⟩

theorem assoc {c : Syscall β} {g : β → Syscall β} {f : β → Syscall α} :
    Does L D p (c >>= g >>= f) s ws ↔ Does L D p (c >>= fun b => g b >>= f) s ws := by
  rw [bind_assoc]

/-- **The rule of `memmove`.** -/
theorem storeBytes {f : Unit → Syscall α} (h : Ready L s D K) (hp : (s.st.proc p).state ≠ .unused)
    (hlt : dst.toNat + bytes.length ≤ 2 ^ 20)
    (hrest : ∀ m, Ready L { s with st := { s.st with mem := m } } D K →
      Does L D p (f ()) { s with st := { s.st with mem := m } } (reach m (s.st.proc p).pgdir us)) :
    Does L D p (Descriptors.storeBytes p dst bytes >>= f) s
      (reach s.st.mem (s.st.proc p).pgdir (bytewise dst bytes ++ us)) := by
  induction bytes generalizing s dst with
  | nil => exact hrest s.st.mem h
  | cons b bytes ih =>
    rw [List.length_cons] at hlt
    rw [Descriptors.storeBytes, assoc]
    refine store h hp (by rw [List.length_singleton]; omega) fun m hm => ?_
    exact ih hm hp (by rw [toNat_add_one (by omega)]; omega) fun m' hm' => hrest m' hm'

end Does

end OperatingSystems.CowFork.Descriptors
