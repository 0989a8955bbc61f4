import OperatingSystems.ProcTable.Family

/-! # No exit is lost

* `Pages`: every kernel stack and page table belongs to one entry, or was freed once.
* `Lives`: who has exited is a zombie, or was returned by `wait` and has nothing left to free.
* `no_lost_exits`: with `Family`, what `exit` and `wait` promise each other. -/

namespace OperatingSystems.ProcTable.Exits

open OperatingSystems.Lib.Transition OperatingSystems.ProcTable

variable {k k' : Kernel} {p q r np : Fin nproc}

/-! ### Kernel stacks and page tables -/

/-- The entry has a page table: that of a process, or of a child that is ready. -/
def Tabled (k : Kernel) (q : Fin nproc) : Prop :=
  (k.proc q).state ≠ .unused ∧ (k.proc q).state ≠ .embryo ∨ ∃ p, k.frame p = .ready q

/-- The entry has the kernel stack or the page table. -/
def Has (k : Kernel) (q : Fin nproc) (n : ℕ) : Prop :=
  (k.proc q).kstack = some n ∨ Tabled k q ∧ (k.proc q).pgdir = some n

/-- **Who owns which allocation.** -/
structure Pages (k : Kernel) : Prop where
  free : ∀ q, (k.proc q).state = .unused ∨ (∃ p, k.frame p = .kalloc q) → (k.proc q).kstack = none
  stack : ∀ q, Tabled k q ∨ (∃ p, k.frame p = .copy q) → (k.proc q).kstack ≠ none
  table : ∀ q, Tabled k q → (k.proc q).pgdir ≠ none
  has : ∀ q n, Has k q n → n < k.pages ∧ n ∉ k.freed
  inj : ∀ q r n, Has k q n → Has k r n → q = r
  apart : ∀ q n, (k.proc q).kstack = some n → Tabled k q → (k.proc q).pgdir ≠ some n
  freed : ∀ n ∈ k.freed, n < k.pages
  nodup : k.freed.Nodup

/-- Nothing is allocated or freed. -/
theorem Pages.keep (h : Pages k) (hpages : k'.pages = k.pages) (hfreed : k'.freed = k.freed)
    (hkstack : ∀ q, (k'.proc q).kstack = (k.proc q).kstack) (hpgdir : ∀ q, (k'.proc q).pgdir = (k.proc q).pgdir)
    (hfree : ∀ q, (k'.proc q).state = .unused ∨ (∃ p, k'.frame p = .kalloc q) →
      (k.proc q).state = .unused ∨ ∃ p, k.frame p = .kalloc q)
    (hcopy : ∀ q, (∃ p, k'.frame p = .copy q) → ∃ p, k.frame p = .copy q)
    (htabled : ∀ q, Tabled k' q → Tabled k q) : Pages k' := by
  have hhas : ∀ {q n}, Has k' q n → Has k q n := by
    intro q n hn
    unfold Has at *
    rw [hkstack, hpgdir] at hn
    exact hn.imp_right fun h => ⟨htabled q h.1, h.2⟩
  refine ⟨fun q hq => ?_, fun q hq => ?_, fun q hq => ?_, fun q n hn => ?_, fun q r n hq hr => ?_, fun q n hs ht => ?_,
    ?_, ?_⟩
  · rw [hkstack]
    exact h.free q (hfree q hq)
  · rw [hkstack]
    exact h.stack q (hq.imp (htabled q) (hcopy q))
  · rw [hpgdir]
    exact h.table q (htabled q hq)
  · rw [hpages, hfreed]
    exact h.has q n (hhas hn)
  · exact h.inj q r n (hhas hq) (hhas hr)
  · rw [hkstack] at hs
    rw [hpgdir]
    exact h.apart q n hs (htabled q ht)
  · rw [hpages, hfreed]
    exact h.freed
  · rw [hfreed]
    exact h.nodup

/-- No other process is busy with the child of `p`, or with an entry that is nobody's child. -/
theorem Family.alone (h : Family k)
    (hold : (k.frame p).child = some np ∨ (k.frame p).child = none ∧ (k.proc np).state ≠ .embryo) (hr : r ≠ p) :
    (k.frame r).child ≠ some np := by
  intro hm
  rcases hold with hc | ⟨-, hne⟩
  · exact hr (h.child_inj r p np hm hc)
  · exact hne (h.child r np hm).1

/-- What `Pages` says of one entry. -/
structure Entry (k : Kernel) (q : Fin nproc) : Prop where
  free : (k.proc q).state = .unused ∨ (∃ p, k.frame p = .kalloc q) → (k.proc q).kstack = none
  stack : Tabled k q ∨ (∃ p, k.frame p = .copy q) → (k.proc q).kstack ≠ none
  table : Tabled k q → (k.proc q).pgdir ≠ none
  apart : ∀ n, (k.proc q).kstack = some n → Tabled k q → (k.proc q).pgdir ≠ some n

theorem Pages.entry (h : Pages k) (q : Fin nproc) : Entry k q := ⟨h.free q, h.stack q, h.table q, h.apart q⟩

section
variable {x : Proc} {frame f : Frame} {freed : List ℕ} {tabled : Prop} {n : ℕ}

/-- `p` goes on in `frame`, and entry `np`, with which nobody else is busy, becomes `x`. `tabled` says whether it
has a page table then. -/
structure Moves (k k' : Kernel) (p np : Fin nproc) (x : Proc) (frame : Frame) (tabled : Prop) : Prop where
  hold : (k.frame p).child = some np ∨ (k.frame p).child = none ∧ (k.proc np).state ≠ .embryo
  child : frame.child = some np ∨ frame.child = none
  proc_eq : k'.proc = Function.update k.proc np x
  frame_eq : k'.frame = Function.update k.frame p frame
  tabled_iff : tabled ↔ x.state ≠ .unused ∧ x.state ≠ .embryo ∨ frame = .ready np

namespace Moves

variable (h : Moves k k' p np x frame tabled)

include h

theorem proc_self : k'.proc np = x := by rw [h.proc_eq, Function.update_self]

theorem proc_of_ne (hq : q ≠ np) : k'.proc q = k.proc q := by rw [h.proc_eq, Function.update_of_ne hq]

/-- A frame with the entry is the new one of `p`. -/
theorem frame_self (hfam : Family k) (hf : f.child = some np) (hr : k'.frame r = f) : frame = f := by
  rw [h.frame_eq] at hr
  rcases eq_or_ne r p with rfl | hrp
  · rwa [Function.update_self] at hr
  · rw [Function.update_of_ne hrp] at hr
    exact absurd (by rwa [hr]) (hfam.alone h.hold hrp)

/-- A frame with another entry is an old one. -/
theorem frame_of_ne (hq : q ≠ np) (hf : f.child = some q) (hr : k'.frame r = f) : k.frame r = f := by
  rw [h.frame_eq] at hr
  rcases eq_or_ne r p with rfl | hrp
  · rw [Function.update_self] at hr
    subst hr
    rcases h.child with hc | hc <;> rw [hc] at hf
    · exact absurd (Option.some.inj hf).symm hq
    · cases hf
  · rwa [Function.update_of_ne hrp] at hr

theorem tabled_self (hfam : Family k) (ht : Tabled k' np) : tabled := by
  rw [h.tabled_iff]
  unfold Tabled at ht
  rw [h.proc_self] at ht
  exact ht.imp_right fun ⟨r, hr⟩ => h.frame_self hfam rfl hr

theorem tabled_of_ne (hq : q ≠ np) (ht : Tabled k' q) : Tabled k q := by
  unfold Tabled at *
  rw [h.proc_of_ne hq] at ht
  exact ht.imp_right fun ⟨r, hr⟩ => ⟨r, h.frame_of_ne hq rfl hr⟩

theorem has_self (hfam : Family k) (hn : Has k' np n) : x.kstack = some n ∨ tabled ∧ x.pgdir = some n := by
  unfold Has at hn
  rw [h.proc_self] at hn
  exact hn.imp_right fun hn => ⟨h.tabled_self hfam hn.1, hn.2⟩

theorem has_of_ne (hq : q ≠ np) (hn : Has k' q n) : Has k q n := by
  unfold Has at *
  rw [h.proc_of_ne hq] at hn
  exact hn.imp_right fun hn => ⟨h.tabled_of_ne hq hn.1, hn.2⟩

theorem entry_of_ne (hq : q ≠ np) (he : Entry k q) : Entry k' q := by
  have hproc := h.proc_of_ne hq
  constructor <;> rw [hproc]
  case free => exact fun hu => he.free (hu.imp_right fun ⟨r, hr⟩ => ⟨r, h.frame_of_ne hq rfl hr⟩)
  case stack => exact fun ht => he.stack (ht.imp (h.tabled_of_ne hq) fun ⟨r, hr⟩ => ⟨r, h.frame_of_ne hq rfl hr⟩)
  case table => exact fun ht => he.table (h.tabled_of_ne hq ht)
  case apart => exact fun n hs ht => he.apart n hs (h.tabled_of_ne hq ht)

end Moves

/-- The new entry has what its state asks for. -/
structure Complete (np : Fin nproc) (x : Proc) (frame : Frame) (tabled : Prop) : Prop where
  free : x.state = .unused ∨ frame = .kalloc np → x.kstack = none
  stack : tabled ∨ frame = .copy np → x.kstack ≠ none
  table : tabled → x.pgdir ≠ none
  apart : ∀ n, x.kstack = some n → tabled → x.pgdir ≠ some n

theorem Moves.entry_self (h : Moves k k' p np x frame tabled) (hfam : Family k)
    (hx : Complete np x frame tabled) : Entry k' np := by
  have hself := h.proc_self
  constructor <;> rw [hself]
  case free => exact fun hu => hx.free (hu.imp_right fun ⟨r, hr⟩ => h.frame_self hfam rfl hr)
  case stack => exact fun ht => hx.stack (ht.imp (h.tabled_self hfam) fun ⟨r, hr⟩ => h.frame_self hfam rfl hr)
  case table => exact fun ht => hx.table (h.tabled_self hfam ht)
  case apart => exact fun n hs ht => hx.apart n hs (h.tabled_self hfam ht)

/-- What the entry had and has no more is freed, and what it has more is new. -/
structure Trades (k k' : Kernel) (np : Fin nproc) (x : Proc) (tabled : Prop) (freed : List ℕ) : Prop where
  pages : k.pages ≤ k'.pages
  freed_eq : k'.freed = k.freed ++ freed
  gone : ∀ n ∈ freed, Has k np n
  nodup : freed.Nodup
  has : ∀ n, x.kstack = some n ∨ tabled ∧ x.pgdir = some n → Has k np n ∧ n ∉ freed ∨ k.pages ≤ n ∧ n < k'.pages

/-- Nothing is freed. -/
theorem Trades.keep (hpages : k.pages ≤ k'.pages) (hfreed : k'.freed = k.freed)
    (h : ∀ n, x.kstack = some n ∨ tabled ∧ x.pgdir = some n → Has k np n ∨ k.pages ≤ n ∧ n < k'.pages) :
    Trades k k' np x tabled [] :=
  ⟨hpages, by rw [hfreed, List.append_nil], by simp, List.nodup_nil, fun n hn => by simpa using h n hn⟩

/-- An entry without a stack and a page table is free. -/
theorem Complete.unused (hnot : ¬ tabled) (hstack : x.kstack = none) (hcopy : frame ≠ .copy np) :
    Complete np x frame tabled :=
  ⟨fun _ => hstack, by simp [hnot, hcopy], fun ht => absurd ht hnot, fun _ _ ht => absurd ht hnot⟩

theorem Pages.lt (h : Pages k) (hn : Has k q n) : n < k.pages := (h.has q n hn).1

/-- What an entry has was its own before, or is new. -/
theorem Pages.has_goto (h : Pages k) (hfam : Family k) (hm : Moves k k' p np x frame tabled)
    (ht : Trades k k' np x tabled freed) (hn : Has k' q n) :
    Has k q n ∧ n ∉ freed ∨ q = np ∧ k.pages ≤ n ∧ n < k'.pages := by
  rcases eq_or_ne q np with rfl | hq
  · exact (ht.has n (hm.has_self hfam hn)).imp_right fun hnew => ⟨rfl, hnew⟩
  · have hn := hm.has_of_ne hq hn
    exact .inl ⟨hn, fun hgone => hq (h.inj q np n hn (ht.gone n hgone))⟩

/-- One entry changes. -/
theorem Pages.goto (h : Pages k) (hfam : Family k) (x : Proc) (frame : Frame) (tabled : Prop)
    (hm : Moves k k' p np x frame tabled) (ht : Trades k k' np x tabled freed)
    (hx : Complete np x frame tabled) : Pages k' := by
  have hentry : ∀ q, Entry k' q := fun q => by
    rcases eq_or_ne q np with rfl | hq
    · exact hm.entry_self hfam hx
    · exact hm.entry_of_ne hq (h.entry q)
  constructor
  case free => exact fun q => (hentry q).free
  case stack => exact fun q => (hentry q).stack
  case table => exact fun q => (hentry q).table
  case apart => exact fun q => (hentry q).apart
  case has =>
    intro q n hn
    rw [ht.freed_eq, List.mem_append, not_or]
    rcases h.has_goto hfam hm ht hn with ⟨hn, hkept⟩ | ⟨-, hle, hlt⟩
    · exact ⟨(h.lt hn).trans_le ht.pages, (h.has q n hn).2, hkept⟩
    · exact ⟨hlt, fun hn => absurd (h.freed n hn) (not_lt.mpr hle), fun hn => not_lt.mpr hle (h.lt (ht.gone n hn))⟩
  case inj =>
    intro q r n hq hr
    rcases h.has_goto hfam hm ht hq with ⟨hq, -⟩ | ⟨hqn, hle, -⟩ <;>
      rcases h.has_goto hfam hm ht hr with ⟨hr, -⟩ | ⟨hrn, hle', -⟩
    · exact h.inj q r n hq hr
    · exact absurd (h.lt hq) (not_lt.mpr hle')
    · exact absurd (h.lt hr) (not_lt.mpr hle)
    · rw [hqn, hrn]
  case freed =>
    intro n hn
    rw [ht.freed_eq, List.mem_append] at hn
    rcases hn with hn | hn
    · exact (h.freed n hn).trans_le ht.pages
    · exact (h.lt (ht.gone n hn)).trans_le ht.pages
  case nodup =>
    rw [ht.freed_eq]
    exact h.nodup.append ht.nodup fun n hn hn' => (h.has np n (ht.gone n hn')).2 hn

end

theorem tabled_of_zombie (hz : (k.proc q).state = .zombie) : Tabled k q := .inl (by simp [hz])

theorem Pages.calm (h : Pages k) (hc : Calm k k') : Pages k' := by
  refine h.keep hc.pages hc.freed hc.kstack hc.pgdir (fun q hq => ?_) (fun q hq => ?_) fun q hq => ?_
  · exact hq.imp (hc.state_iff (.inl rfl)).mp (.imp fun r hr => (hc.frame_iff (by simp [Frame.child])).mp hr)
  · exact hq.imp fun r hr => (hc.frame_iff (by simp [Frame.child])).mp hr
  · unfold Tabled at *
    rw [Ne, Ne, hc.state_iff (.inl rfl), hc.state_iff (.inr (.inl rfl))] at hq
    exact hq.imp_right (.imp fun r hr => (hc.frame_iff (by simp [Frame.child])).mp hr)

theorem Pages.exit (h : Pages k) (hp : (k.proc p).state = .running) : Pages (exit k p) := by
  have hkeep : ∀ {q}, q ≠ p → (((ProcTable.exit k p).proc q).state = .unused ↔ (k.proc q).state = .unused) ∧
      (((ProcTable.exit k p).proc q).state = .embryo ↔ (k.proc q).state = .embryo) := by
    intro q hq
    rcases exit_state (k := k) hq with hs | ⟨hs, hs'⟩
    · rw [hs]
      exact ⟨Iff.rfl, Iff.rfl⟩
    · rw [hs, hs']
      simp
  refine h.keep rfl rfl (fun q => ?_) (fun q => ?_) (fun q hq => ?_) (fun q hq => hq) fun q hq => ?_
  · rcases eq_or_ne q p with rfl | hq
    · rw [exit_proc_self]
      simp
    · rw [exit_proc_of_ne hq]
      simp
  · rcases eq_or_ne q p with rfl | hq
    · rw [exit_proc_self]
      simp
    · rw [exit_proc_of_ne hq]
      simp
  · refine hq.imp_left fun hq => ?_
    rcases eq_or_ne q p with rfl | hqp
    · rw [exit_zombie] at hq
      cases hq
    · exact (hkeep hqp).1.mp hq
  · rcases eq_or_ne q p with rfl | hqp
    · exact .inl (by simp [hp])
    · exact hq.imp_left fun ⟨h1, h2⟩ => ⟨mt (hkeep hqp).1.mpr h1, mt (hkeep hqp).2.mpr h2⟩

theorem Pages.reap (h : Pages k) (hfam : Family k) (hp : (k.frame p).child = none)
    (hq : (k.proc q).state = .zombie) : Pages (reaped k p q) := by
  have ht := tabled_of_zombie hq
  have hgone : ∀ n ∈ (k.proc q).kstack.toList ++ (k.proc q).pgdir.toList, Has k q n := by
    intro n hn
    rw [List.mem_append, Option.mem_toList, Option.mem_toList] at hn
    exact hn.imp_right fun hn => ⟨ht, hn⟩
  have hnodup : ((k.proc q).kstack.toList ++ (k.proc q).pgdir.toList).Nodup := by
    cases hs : (k.proc q).kstack with
    | none => cases (k.proc q).pgdir <;> simp
    | some n =>
      have hne := h.apart q n hs ht
      cases hd : (k.proc q).pgdir with
      | none => simp
      | some m =>
        rw [hd] at hne
        simpa [eq_comm] using hne
  let x := { k.proc q with kstack := none, state := .unused, pid := 0, parent := none, killed := false }
  have hm : Moves k (reaped k p q) p q x .user False :=
    ⟨.inr ⟨hp, by simp [hq]⟩, .inr rfl, rfl, rfl, by simp [x]⟩
  exact h.goto hfam x .user False hm ⟨le_rfl, List.append_assoc .., hgone, hnodup, by simp [x]⟩
    (.unused not_false rfl (by simp))

theorem Pages.change {op : Op} (h : Pages k) (hfam : Family k) (hc : Change k op k') : Pages k' := by
  cases hc with
  | calm hc => exact h.calm hc
  | @alloc p np hp hf hnp =>
    have hun := findUnused_eq hnp
    have hnone := h.free np (.inl hun)
    rw [allocproc_of_some hnp]
    let x := { k.proc np with state := .embryo, pid := k.nextpid }
    refine h.goto hfam x (.kalloc np) False
      ⟨.inr ⟨by rw [hf]; rfl, by simp [hun]⟩, .inl rfl, rfl, rfl, by simp [x]⟩
      (.keep le_rfl rfl fun n hn => ?_) (.unused not_false hnone (by simp))
    simp [x, hnone] at hn
  | @kalloc p np ok hp hf =>
    have hchild : (k.frame p).child = some np := by rw [hf]; rfl
    have hemb := (hfam.child p np hchild).1
    cases ok with
    | true =>
      let x := { k.proc np with kstack := some k.pages }
      refine h.goto hfam x (.copy np) False
        ⟨.inl hchild, .inl rfl, rfl, rfl, by simp [x, hemb]⟩
        (.keep (Nat.le_succ _) rfl fun n hn => ?_) ⟨by simp [x, hemb], by simp [x], by simp, by simp⟩
      obtain rfl : k.pages = n := by simpa [x] using hn
      exact .inr ⟨le_rfl, Nat.lt_succ_self _⟩
    | false =>
      let x := { k.proc np with kstack := none, state := .unused }
      exact h.goto hfam x .user False
        ⟨.inl hchild, .inr rfl, rfl, rfl, by simp [x]⟩ (.keep le_rfl rfl (by simp [x]))
        (.unused not_false rfl (by simp))
  | @copy p np ok hp hf =>
    have hchild : (k.frame p).child = some np := by rw [hf]; rfl
    have hemb := (hfam.child p np hchild).1
    have hstack := h.stack np (.inr ⟨p, hf⟩)
    cases ok with
    | true =>
      let x := { k.proc np with pgdir := some k.pages, parent := some p }
      refine h.goto hfam x (.ready np) True
        ⟨.inl hchild, .inl rfl, rfl, rfl, by simp⟩ (.keep (Nat.le_succ _) rfl fun n hn => ?_)
        ⟨by simp [x, hemb], fun _ => hstack, by simp [x], fun n hn _ => ?_⟩
      · obtain hn | ⟨-, hn⟩ := hn
        · exact .inl (.inl hn)
        · obtain rfl : k.pages = n := by simpa [x] using hn
          exact .inr ⟨le_rfl, Nat.lt_succ_self _⟩
      · have hlt : n < k.pages := h.lt (.inl hn)
        simp [x, hlt.ne']
    | false =>
      let x := { k.proc np with pgdir := none, kstack := none, state := .unused }
      have hgone : ∀ n ∈ (k.proc np).kstack.toList, Has k np n := fun n hn => .inl (Option.mem_toList.mp hn)
      have hnodup : (k.proc np).kstack.toList.Nodup := by cases (k.proc np).kstack <;> simp
      exact h.goto hfam x .user False
        ⟨.inl hchild, .inr rfl, rfl, rfl, by simp [x]⟩ ⟨le_rfl, rfl, hgone, hnodup, by simp [x]⟩
        (.unused not_false rfl (by simp))
  | @ready p np hp hf =>
    have hchild : (k.frame p).child = some np := by rw [hf]; rfl
    have ht : Tabled k np := .inr ⟨p, hf⟩
    let x := { k.proc np with state := .runnable }
    exact h.goto hfam x .user True
      ⟨.inl hchild, .inr rfl, rfl, rfl, by simp [x]⟩
      (.keep le_rfl rfl fun n hn => .inl (hn.imp_right fun hn => ⟨ht, hn.2⟩))
      ⟨by simp [x], fun _ => h.stack np (.inl ht), fun _ => h.table np ht, fun n hn _ => h.apart np n hn ht⟩
  | exit hp hf hinit => exact h.exit hp
  | reap hc hp hq => exact (h.calm hc).reap (hfam.calm hc) hp hq.2

/-! ### Who was returned -/

/-- **Who has exited** is a zombie, or was returned by `wait`, once. -/
structure Lives (k : Kernel) (h : Log) : Prop where
  nextpid : k.nextpid = BitVec.ofNat 32 (h.born + 1)
  pid : ∀ q, (k.proc q).state ≠ .unused → (k.proc q).pid = BitVec.ofNat 32 (h.life q + 1)
  life : ∀ q, (k.proc q).state ≠ .unused → h.life q < h.born
  inj : ∀ q r, (k.proc q).state ≠ .unused → (k.proc r).state ≠ .unused → h.life q = h.life r → q = r
  living : ∀ q, (k.proc q).state ≠ .unused → (k.proc q).state ≠ .zombie → ∀ e ∈ h.exits, e.life ≠ h.life q
  zombie : ∀ q, (k.proc q).state = .zombie →
    ⟨h.life q, (k.proc q).pid, (k.proc q).kstack, (k.proc q).pgdir⟩ ∈ h.exits
  present : ∀ q, (k.proc q).state ≠ .unused → h.life q ∉ h.waits.map Prod.fst
  exits : ∀ e ∈ h.exits, e.pid = BitVec.ofNat 32 (e.life + 1) ∧ e.life < h.born ∧ e.kstack ≠ none ∧ e.pgdir ≠ none
  exits_nodup : (h.exits.map Exit.life).Nodup
  waits : ∀ w ∈ h.waits, ∃ e ∈ h.exits, e.life = w.1 ∧ e.pid = w.2.1
  waits_nodup : (h.waits.map Prod.fst).Nodup
  done : ∀ e ∈ h.exits, (∃ q, (k.proc q).state = .zombie ∧ h.life q = e.life) ∨
    e.life ∈ h.waits.map Prod.fst ∧ ∀ n, e.kstack = some n ∨ e.pgdir = some n → n ∈ k.freed

variable {h : Log}

/-- Nobody is born, exits or is returned. -/
theorem Lives.keep (hl : Lives k h) (hnextpid : k'.nextpid = k.nextpid)
    (hunused : ∀ q, (k'.proc q).state ≠ .unused → (k.proc q).state ≠ .unused)
    (hzombie : ∀ q, (k'.proc q).state = .zombie ↔ (k.proc q).state = .zombie)
    (hpid : ∀ q, (k'.proc q).pid = (k.proc q).pid)
    (hpages : ∀ q, (k.proc q).state = .zombie →
      (k'.proc q).kstack = (k.proc q).kstack ∧ (k'.proc q).pgdir = (k.proc q).pgdir)
    (hfreed : k.freed ⊆ k'.freed) : Lives k' h where
  nextpid := hnextpid.trans hl.nextpid
  pid q hq := (hpid q).trans (hl.pid q (hunused q hq))
  life q hq := hl.life q (hunused q hq)
  inj q r hq hr := hl.inj q r (hunused q hq) (hunused r hr)
  living q hq hz := hl.living q (hunused q hq) (mt (hzombie q).mpr hz)
  zombie q hq := by
    have hz := (hzombie q).mp hq
    rw [hpid, (hpages q hz).1, (hpages q hz).2]
    exact hl.zombie q hz
  present q hq := hl.present q (hunused q hq)
  exits := hl.exits
  exits_nodup := hl.exits_nodup
  waits := hl.waits
  waits_nodup := hl.waits_nodup
  done e he := (hl.done e he).imp (fun ⟨q, hq, hlife⟩ => ⟨q, (hzombie q).mpr hq, hlife⟩)
    fun ⟨hw, hf⟩ => ⟨hw, fun n hn => hfreed (hf n hn)⟩

/-- One entry changes that is no zombie, and keeps its pid. -/
theorem Lives.entry (hl : Lives k h) (np : Fin nproc) (x : Proc) (hproc : k'.proc = Function.update k.proc np x)
    (hnextpid : k'.nextpid = k.nextpid) (hnp : (k.proc np).state ≠ .unused ∧ (k.proc np).state ≠ .zombie)
    (hx : x.state ≠ .zombie) (hpid : x.pid = (k.proc np).pid) (hfreed : k.freed ⊆ k'.freed) : Lives k' h := by
  have hself : k'.proc np = x := by rw [hproc, Function.update_self]
  have hne : ∀ {q}, q ≠ np → k'.proc q = k.proc q := fun hq => by rw [hproc, Function.update_of_ne hq]
  refine hl.keep hnextpid (fun q hq => ?_) (fun q => ?_) (fun q => ?_) (fun q hq => ?_) hfreed
  · rcases eq_or_ne q np with rfl | hqn
    · exact hnp.1
    · rwa [← hne hqn]
  · rcases eq_or_ne q np with rfl | hqn
    · rw [hself]
      simp [hx, hnp.2]
    · rw [hne hqn]
  · rcases eq_or_ne q np with rfl | hqn
    · rw [hself, hpid]
    · rw [hne hqn]
  · have hqn : q ≠ np := by
      rintro rfl
      exact hnp.2 hq
    rw [hne hqn]
    exact ⟨rfl, rfl⟩

/-- A life that was returned has ended. -/
theorem Lives.waited_lt (hl : Lives k h) {l : ℕ} (hw : l ∈ h.waits.map Prod.fst) : l < h.born := by
  obtain ⟨w, hmem, rfl⟩ := List.mem_map.mp hw
  obtain ⟨e, he, hew, -⟩ := hl.waits w hmem
  rw [← hew]
  exact (hl.exits e he).2.1

theorem Lives.alloc (hl : Lives k h) (hnp : findUnused k = some np) : Lives (allocproc k p) (h.alloc np) := by
  have hun := findUnused_eq hnp
  have hk : (allocproc k p).proc = Function.update k.proc np { k.proc np with state := .embryo, pid := k.nextpid } := by
    rw [allocproc_of_some hnp]
    rfl
  have hnext : (allocproc k p).nextpid = k.nextpid + 1 ∧ (allocproc k p).freed = k.freed := by
    rw [allocproc_of_some hnp]
    exact ⟨rfl, rfl⟩
  have hself : (allocproc k p).proc np = { k.proc np with state := .embryo, pid := k.nextpid } := by
    rw [hk, Function.update_self]
  have hne : ∀ {q}, q ≠ np → (allocproc k p).proc q = k.proc q := fun hq => by rw [hk, Function.update_of_ne hq]
  have lself : (h.alloc np).life np = h.born := Function.update_self ..
  have lne : ∀ {q}, q ≠ np → (h.alloc np).life q = h.life q := fun hq => Function.update_of_ne hq _ _
  have hzombie : ∀ {q}, ((allocproc k p).proc q).state = .zombie → q ≠ np := by
    rintro q hq rfl
    rw [hself] at hq
    cases hq
  refine ⟨?_, fun q hq => ?_, fun q hq => ?_, fun q r hq hr he => ?_, fun q hq hz e he => ?_, fun q hq => ?_,
    fun q hq => ?_, fun e he => ?_, hl.exits_nodup, hl.waits, hl.waits_nodup, fun e he => ?_⟩
  · rw [hnext.1, hl.nextpid, show (h.alloc np).born = h.born + 1 from rfl, BitVec.ofNat_add (h.born + 1) 1]
    rfl
  · rcases eq_or_ne q np with rfl | hqn
    · rw [hself, lself]
      exact hl.nextpid
    · rw [hne hqn] at hq ⊢
      rw [lne hqn]
      exact hl.pid q hq
  · show (h.alloc np).life q < h.born + 1
    rcases eq_or_ne q np with rfl | hqn
    · rw [lself]
      exact Nat.lt_succ_self _
    · rw [hne hqn] at hq
      rw [lne hqn]
      exact (hl.life q hq).trans (Nat.lt_succ_self _)
  · rcases eq_or_ne q np with rfl | hqn <;> rcases eq_or_ne r q with rfl | hrq
    · rfl
    · rw [hne hrq] at hr
      rw [lself, lne hrq] at he
      exact absurd he.symm (hl.life r hr).ne
    · rfl
    · rw [hne hqn] at hq
      rcases eq_or_ne r np with rfl | hrn
      · rw [lself, lne hqn] at he
        exact absurd he (hl.life q hq).ne
      · rw [hne hrn] at hr
        rw [lne hqn, lne hrn] at he
        exact hl.inj q r hq hr he
  · rcases eq_or_ne q np with rfl | hqn
    · rw [lself]
      exact (hl.exits e he).2.1.ne
    · rw [hne hqn] at hq hz
      rw [lne hqn]
      exact hl.living q hq hz e he
  · have hqn := hzombie hq
    rw [hne hqn] at hq ⊢
    rw [lne hqn]
    exact hl.zombie q hq
  · rcases eq_or_ne q np with rfl | hqn
    · rw [lself]
      exact fun hw => (hl.waited_lt hw).ne rfl
    · rw [hne hqn] at hq
      rw [lne hqn]
      exact hl.present q hq
  · obtain ⟨h1, h2, h3⟩ := hl.exits e he
    exact ⟨h1, h2.trans (Nat.lt_succ_self _), h3⟩
  · refine (hl.done e he).imp (fun ⟨q, hq, hlife⟩ => ⟨q, ?_⟩) fun ⟨hw, hf⟩ => ⟨hw, fun n hn => ?_⟩
    · have hqn : q ≠ np := by
        rintro rfl
        rw [hq] at hun
        cases hun
      rw [hne hqn, lne hqn]
      exact ⟨hq, hlife⟩
    · rw [hnext.2]
      exact hf n hn

theorem Lives.exit (hl : Lives k h) (hp : (k.proc p).state = .running)
    (hpages : (k.proc p).kstack ≠ none ∧ (k.proc p).pgdir ≠ none) : Lives (exit k p) (h.exit k p) := by
  have hlive : (k.proc p).state ≠ .unused ∧ (k.proc p).state ≠ .zombie := by simp [hp]
  have hfields : ∀ q, ((ProcTable.exit k p).proc q).pid = (k.proc q).pid ∧
      ((ProcTable.exit k p).proc q).kstack = (k.proc q).kstack ∧
      ((ProcTable.exit k p).proc q).pgdir = (k.proc q).pgdir := by
    intro q
    rcases eq_or_ne q p with rfl | hq
    · rw [exit_proc_self]
      simp
    · rw [exit_proc_of_ne hq]
      simp
  have hunused : ∀ {q}, ((ProcTable.exit k p).proc q).state ≠ .unused → (k.proc q).state ≠ .unused := by
    intro q hq
    rcases eq_or_ne q p with rfl | hqp
    · exact hlive.1
    · rcases exit_state (k := k) hqp with hs | ⟨hs, -⟩
      · rwa [hs] at hq
      · rw [hs]
        exact nofun
  have hzombie : ∀ {q}, q ≠ p → (((ProcTable.exit k p).proc q).state = .zombie ↔ (k.proc q).state = .zombie) := by
    intro q hq
    rcases exit_state (k := k) hq with hs | ⟨hs, hs'⟩
    · rw [hs]
    · rw [hs, hs']
      simp
  refine ⟨hl.nextpid, fun q hq => ?_, fun q hq => hl.life q (hunused hq), fun q r hq hr => ?_,
    fun q hq hz e he => ?_, fun q hq => ?_, fun q hq => hl.present q (hunused hq), fun e he => ?_, ?_, fun w hw => ?_,
    hl.waits_nodup, fun e he => ?_⟩
  · rw [(hfields q).1]
    exact hl.pid q (hunused hq)
  · exact hl.inj q r (hunused hq) (hunused hr)
  · have hqp : q ≠ p := by
      rintro rfl
      exact hz exit_zombie
    rcases List.mem_append.mp he with he | he
    · exact hl.living q (hunused hq) (mt (hzombie hqp).mpr hz) e he
    · rw [List.mem_singleton.mp he]
      exact fun heq => hqp (hl.inj p q hlive.1 (hunused hq) heq).symm
  · show _ ∈ h.exits ++ [_]
    rw [(hfields q).1, (hfields q).2.1, (hfields q).2.2, List.mem_append, List.mem_singleton]
    rcases eq_or_ne q p with rfl | hqp
    · exact .inr rfl
    · exact .inl (hl.zombie q ((hzombie hqp).mp hq))
  · rcases List.mem_append.mp he with he | he
    · exact hl.exits e he
    · rw [List.mem_singleton.mp he]
      exact ⟨hl.pid p hlive.1, hl.life p hlive.1, hpages⟩
  · show ((h.exits ++ [_]).map Exit.life).Nodup
    rw [List.map_append, List.map_singleton]
    refine hl.exits_nodup.append (List.nodup_singleton _) fun n hn hn' => ?_
    obtain ⟨e, he, rfl⟩ := List.mem_map.mp hn
    exact hl.living p hlive.1 hlive.2 e he (List.mem_singleton.mp hn')
  · obtain ⟨e, he, hew⟩ := hl.waits w hw
    exact ⟨e, List.mem_append_left _ he, hew⟩
  · rcases List.mem_append.mp he with he | he
    · refine (hl.done e he).imp_left fun ⟨q, hq, hlife⟩ => ⟨q, ?_, hlife⟩
      have hqp : q ≠ p := by
        rintro rfl
        exact hlive.2 hq
      exact (hzombie hqp).mpr hq
    · rw [List.mem_singleton.mp he]
      exact .inl ⟨p, exit_zombie, rfl⟩

theorem Lives.reap (hl : Lives k h) (hq : (k.proc q).state = .zombie) :
    Lives (reaped k p q) (h.returned k p q) := by
  have hun : (k.proc q).state ≠ .unused := by simp [hq]
  have hself : ((reaped k p q).proc q).state = .unused := by
    show (Function.update k.proc q _ q).state = _
    rw [Function.update_self]
  have hne : ∀ {r}, r ≠ q → (reaped k p q).proc r = k.proc r := fun hr => Function.update_of_ne hr _ _
  have hother : ∀ {r}, ((reaped k p q).proc r).state ≠ .unused → r ≠ q ∧ (k.proc r).state ≠ .unused := by
    intro r hr
    have hrq : r ≠ q := by
      rintro rfl
      exact hr hself
    exact ⟨hrq, by rwa [hne hrq] at hr⟩
  have hmem : ∀ n, n ∈ (h.returned k p q).waits.map Prod.fst ↔ n ∈ h.waits.map Prod.fst ∨ n = h.life q := by
    intro n
    show n ∈ (h.waits ++ [_]).map Prod.fst ↔ _
    simp
  have hexit := hl.zombie q hq
  refine ⟨hl.nextpid, fun r hr => ?_, fun r hr => hl.life r (hother hr).2, fun r s hr hs => ?_,
    fun r hr hz => ?_, fun r hr => ?_, fun r hr => ?_, hl.exits, hl.exits_nodup, fun w hw => ?_, ?_, fun e he => ?_⟩
  · rw [hne (hother hr).1]
    exact hl.pid r (hother hr).2
  · exact hl.inj r s (hother hr).2 (hother hs).2
  · rw [hne (hother hr).1] at hz
    exact hl.living r (hother hr).2 hz
  · have hrq : r ≠ q := by
      rintro rfl
      rw [hself] at hr
      cases hr
    rw [hne hrq] at hr ⊢
    exact hl.zombie r hr
  · rw [hmem, not_or]
    exact ⟨hl.present r (hother hr).2, fun heq => (hother hr).1 (hl.inj r q (hother hr).2 hun heq)⟩
  · rcases List.mem_append.mp hw with hw | hw
    · exact hl.waits w hw
    · rw [List.mem_singleton.mp hw]
      exact ⟨_, hexit, rfl, rfl⟩
  · show ((h.waits ++ [_]).map Prod.fst).Nodup
    rw [List.map_append, List.map_singleton]
    refine hl.waits_nodup.append (List.nodup_singleton _) fun n hn hn' => ?_
    rw [List.mem_singleton.mp hn'] at hn
    exact hl.present q hun hn
  · rw [hmem]
    rcases hl.done e he with ⟨r, hr, hlife⟩ | ⟨hw, hf⟩
    · rcases eq_or_ne r q with rfl | hrq
      · refine .inr ⟨.inr hlife.symm, fun n hn => ?_⟩
        have heq : e = ⟨h.life r, (k.proc r).pid, (k.proc r).kstack, (k.proc r).pgdir⟩ :=
          List.inj_on_of_nodup_map hl.exits_nodup he hexit hlife.symm
        show n ∈ k.freed ++ (k.proc r).kstack.toList ++ (k.proc r).pgdir.toList
        rw [heq] at hn
        rw [List.append_assoc, List.mem_append, List.mem_append, Option.mem_toList, Option.mem_toList]
        exact .inr hn
      · exact .inl ⟨r, by rwa [hne hrq], hlife⟩
    · refine .inr ⟨.inl hw, fun n hn => ?_⟩
      show n ∈ k.freed ++ _ ++ _
      rw [List.append_assoc]
      exact List.mem_append_left _ (hf n hn)

theorem Lives.calm (hl : Lives k h) (hc : Calm k k') : Lives k' h :=
  hl.keep hc.nextpid (fun _ => mt (hc.state_iff (.inl rfl)).mpr) (fun _ => hc.state_iff (.inr (.inr rfl))) hc.pid
    (fun q _ => ⟨hc.kstack q, hc.pgdir q⟩) (by rw [hc.freed]; exact fun _ => id)

theorem Lives.change {op : Op} (hl : Lives k h) (hfam : Family k) (hpages : Pages k) (hc : Change k op k') :
    Lives k' (note k op h) := by
  have hemb : ∀ {p np}, (k.frame p).child = some np → (k.proc np).state ≠ .unused ∧ (k.proc np).state ≠ .zombie :=
    fun hnp => by simp [(hfam.child _ _ hnp).1]
  cases hc with
  | calm hc hnote =>
    rw [hnote]
    exact hl.calm hc
  | @alloc p np hp hf hnp =>
    have hnote : note k (.fork p) h = h.alloc np := by simp [note, hnp]
    rw [hnote]
    exact hl.alloc hnp
  | @kalloc p np ok hp hf =>
    have hnp := hemb (p := p) (by rw [hf]; rfl)
    cases ok with
    | true => exact hl.entry np { k.proc np with kstack := some k.pages } rfl rfl hnp hnp.2 rfl fun _ => id
    | false =>
      exact hl.entry np { k.proc np with kstack := none, state := .unused } rfl rfl hnp (by simp) rfl
        fun _ => id
  | @copy p np ok hp hf =>
    have hnp := hemb (p := p) (by rw [hf]; rfl)
    cases ok with
    | true =>
      exact hl.entry np { k.proc np with pgdir := some k.pages, parent := some p } rfl rfl hnp hnp.2 rfl fun _ => id
    | false =>
      exact hl.entry np { k.proc np with pgdir := none, kstack := none, state := .unused } rfl rfl hnp (by simp) rfl
        (List.subset_append_left ..)
  | @ready p np hp hf =>
    have hnp := hemb (p := p) (by rw [hf]; rfl)
    exact hl.entry np { k.proc np with state := .runnable } rfl rfl hnp (by simp) rfl fun _ => id
  | @exit p hp hf hinit =>
    have ht : Tabled k p := .inl (by simp [hp])
    exact hl.exit hp ⟨hpages.stack p (.inl ht), hpages.table p ht⟩
  | reap hc hp hq hnote =>
    rw [hnote]
    exact (hl.calm hc).reap hq.2

/-! ### No lost exits -/

/-- The three invariants. -/
structure Inv (x : Kernel × Log) : Prop where
  family : Family x.1
  pages : Pages x.1
  lives : Lives x.1 x.2

section
variable {q : Fin nproc} {n : ℕ}

/-- At boot there is only init. -/
theorem userinit_alive (hq : (userinit.proc q).state ≠ .unused) : q = initproc := by
  by_contra hne
  exact hq (by rw [userinit_of_ne hne]; rfl)

theorem userinit_not_zombie : (userinit.proc q).state ≠ .zombie := by
  rcases eq_or_ne q initproc with rfl | hq
  · simp [userinit_initproc]
  · simp [userinit_of_ne hq, unusedProc]

theorem userinit_parent : (userinit.proc q).parent = none := by
  rcases eq_or_ne q initproc with rfl | hq
  · rw [userinit_initproc]
    rfl
  · rw [userinit_of_ne hq]
    rfl

theorem userinit_has (hn : Has userinit q n) : q = initproc ∧ (n = 0 ∨ n = 1) := by
  unfold Has at hn
  rcases eq_or_ne q initproc with rfl | hq
  · rw [userinit_initproc] at hn
    exact ⟨rfl, hn.imp (fun h => (Option.some.inj h).symm) fun h => (Option.some.inj h.2).symm⟩
  · rw [userinit_of_ne hq] at hn
    rcases hn with hn | ⟨-, hn⟩ <;> cases hn

theorem userinit_tabled (hq : Tabled userinit q) : q = initproc := by
  rcases hq with ⟨hq, -⟩ | ⟨p, hp⟩
  · exact userinit_alive hq
  · cases hp

end

theorem family_userinit : Family userinit := by
  refine ⟨nofun, nofun, fun q hq => ?_, nofun, fun q p hq => ?_, fun q hq _ hne => ?_, ?_, userinit_parent,
    fun q hq => ?_, fun p q _ _ => userinit_not_zombie⟩
  · obtain rfl := userinit_alive (q := q) (by simp [hq])
    rw [userinit_initproc] at hq
    cases hq
  · exact absurd (userinit_parent.symm.trans hq) nofun
  · exact absurd (userinit_alive hq) hne
  · exact .inr (.inl (by rw [userinit_initproc]))
  · exact absurd (userinit_parent.symm.trans hq) nofun

theorem pages_userinit : Pages userinit := by
  refine ⟨fun q hq => ?_, fun q hq => ?_, fun q hq => ?_, fun q n hn => ?_, fun q r n hq hr => ?_,
    fun q n hn ht => ?_, nofun, List.nodup_nil⟩
  · rcases hq with hq | ⟨p, hp⟩
    · rcases eq_or_ne q initproc with rfl | hne
      · rw [userinit_initproc] at hq
        cases hq
      · exact congrArg Proc.kstack (userinit_of_ne hne)
    · cases hp
  · rcases hq with hq | ⟨p, hp⟩
    · rw [userinit_tabled hq, userinit_initproc]
      exact nofun
    · cases hp
  · rw [userinit_tabled hq, userinit_initproc]
    exact nofun
  · obtain ⟨-, rfl | rfl⟩ := userinit_has hn
    exacts [⟨Nat.two_pos, nofun⟩, ⟨Nat.one_lt_two, nofun⟩]
  · rw [(userinit_has hq).1, (userinit_has hr).1]
  · rw [userinit_tabled ht, userinit_initproc] at hn ⊢
    cases hn
    exact nofun

theorem lives_start : Lives userinit Log.start := by
  refine ⟨rfl, fun q hq => ?_, fun q hq => Nat.one_pos, fun q r hq hr _ => ?_, nofun,
    fun q hq => absurd hq userinit_not_zombie, nofun, nofun, List.nodup_nil, nofun, List.nodup_nil, nofun⟩
  · rw [userinit_alive hq]
    rfl
  · rw [userinit_alive hq, userinit_alive hr]

theorem inv_start : Inv (userinit, Log.start) := ⟨family_userinit, pages_userinit, lives_start⟩

theorem inv_reachable {x : Kernel × Log} (hx : runs.Reachable x) : Inv x :=
  hx.invariant (fun x hx => by obtain ⟨k, h⟩ := x; obtain ⟨rfl, rfl⟩ := hx; exact inv_start)
    fun x op y _ ih hs => by
      obtain ⟨k, h⟩ := x
      obtain ⟨k', h'⟩ := y
      obtain ⟨hs, rfl⟩ := hs
      have hc := change_of_step (step_cases hs)
      exact ⟨ih.family.change hc, ih.pages.change ih.family hc, ih.lives.change ih.family ih.pages hc⟩

/-- **No lost exits.** -/
structure NoLostExits (x : Kernel × Log) : Prop where
  /-- Nobody sleeps in `wait` while a child is a zombie. -/
  waits : ∀ p q, Waits x.1 p → (x.1.proc q).parent = some p → (x.1.proc q).state ≠ .zombie
  /-- But for init and the children that `fork` is building, the parents are there. -/
  parent : ∀ q, (x.1.proc q).state ≠ .unused → q ≠ initproc → (∀ p, (x.1.frame p).child ≠ some q) →
    ∃ p, (x.1.proc q).parent = some p ∧ (x.1.proc p).state ≠ .unused ∧ (x.1.proc p).state ≠ .zombie
  /-- Who was returned had exited, with that pid. -/
  exited : ∀ w ∈ x.2.waits, ∃ e ∈ x.2.exits, e.life = w.1 ∧ e.pid = w.2.1
  /-- Nobody exits twice, and nobody is returned twice. -/
  once : (x.2.exits.map Exit.life).Nodup ∧ (x.2.waits.map Prod.fst).Nodup
  /-- Pids come round after `2 ^ 32` processes. -/
  pid : ∀ e ∈ x.2.exits, e.pid = BitVec.ofNat 32 (e.life + 1)
  /-- The kernel stack and the page table are freed when the process is returned. -/
  freed : ∀ e ∈ x.2.exits, ∃ s t, e.kstack = some s ∧ e.pgdir = some t ∧
    x.1.freed.count s = (if e.life ∈ x.2.waits.map Prod.fst then 1 else 0) ∧
    x.1.freed.count t = if e.life ∈ x.2.waits.map Prod.fst then 1 else 0

/-- Who is newly returned was a zombie, and a child of the process that `wait` returned it to. -/
def Handed (x y : Kernel × Log) : Prop :=
  ∀ w ∈ y.2.waits, w ∈ x.2.waits ∨ ∃ q, w.1 = x.2.life q ∧ w.2.1 = (x.1.proc q).pid ∧
    (x.1.proc q).state = .zombie ∧ (x.1.proc q).parent = some w.2.2

theorem Inv.noLostExits {x : Kernel × Log} (hx : Inv x) : NoLostExits x := by
  refine ⟨hx.family.waits, fun q hu hi hc => ?_, hx.lives.waits, ⟨hx.lives.exits_nodup, hx.lives.waits_nodup⟩,
    fun e he => (hx.lives.exits e he).1, fun e he => ?_⟩
  · have hemb : (x.1.proc q).state ≠ .embryo := fun hemb => by
      obtain ⟨p, hp⟩ := hx.family.busy q hemb
      exact hc p hp
    obtain ⟨p, hp⟩ := Option.ne_none_iff_exists'.mp (hx.family.orphan q hu hemb hi)
    have hl := (hx.family.live q p hp).ne
    exact ⟨p, hp, hl.1, hl.2.2⟩
  · obtain ⟨-, -, hs, ht⟩ := hx.lives.exits e he
    obtain ⟨s, hs⟩ := Option.ne_none_iff_exists'.mp hs
    obtain ⟨t, ht⟩ := Option.ne_none_iff_exists'.mp ht
    refine ⟨s, t, hs, ht, ?_⟩
    rcases hx.lives.done e he with ⟨q, hz, hlife⟩ | ⟨hw, hf⟩
    · have hq := List.inj_on_of_nodup_map hx.lives.exits_nodup he (hx.lives.zombie q hz) hlife.symm
      have hpresent := hx.lives.present q (by rw [hz]; exact nofun)
      rw [hlife] at hpresent
      have hks : (x.1.proc q).kstack = some s := by rw [← hs, hq]
      have hpg : (x.1.proc q).pgdir = some t := by rw [← ht, hq]
      rw [if_neg hpresent]
      exact ⟨List.count_eq_zero.mpr (hx.pages.has q s (.inl hks)).2,
        List.count_eq_zero.mpr (hx.pages.has q t (.inr ⟨tabled_of_zombie hz, hpg⟩)).2⟩
    · rw [if_pos hw]
      exact ⟨List.count_eq_one_of_mem hx.pages.nodup (hf s (.inl hs)),
        List.count_eq_one_of_mem hx.pages.nodup (hf t (.inr ht))⟩

/-- One pass of the loop of `wait` returns a zombie among the children. -/
theorem handed_wait {w : ℕ × BitVec 32 × Fin nproc} (hw : w ∈ (h.wait k p).waits) : w ∈ h.waits ∨ ∃ q, w.1 = h.life q ∧
    w.2.1 = (k.proc q).pid ∧ (k.proc q).state = .zombie ∧ (k.proc q).parent = some w.2.2 := by
  unfold Log.wait at hw
  split at hw
  · exact .inl hw
  · next q hq =>
    obtain ⟨hparent, hz⟩ := findZombie_eq hq
    rcases List.mem_append.mp hw with hw | hw
    · exact .inl hw
    · rw [List.mem_singleton.mp hw]
      exact .inr ⟨q, rfl, rfl, hz, hparent⟩

theorem handed_of_step {x y : Kernel × Log} {op : Op} (hs : runs.step x op y) : Handed x y := by
  intro w hw
  rw [hs.2] at hw
  unfold note at hw
  split at hw
  · split at hw
    · exact .inl hw
    · exact .inl hw
  · exact .inl hw
  · exact handed_wait hw
  · split_ifs at hw
    · exact handed_wait hw
    · exact .inl hw
  · exact .inl hw

/-- **No exit is lost**, in any run. -/
theorem no_lost_exits {x : Kernel × Log} (hx : runs.Reachable x) :
    NoLostExits x ∧ ∀ op y, runs.step x op y → Handed x y :=
  ⟨(inv_reachable hx).noLostExits, fun _ _ => handed_of_step⟩

instance (k : Kernel) (p : Fin nproc) : Decidable (Waits k p) := inferInstanceAs (Decidable (_ ∧ _))

/-- Init forks, and waits for its child. -/
def forkAndWait : List Op :=
  [.dispatch 0, .fork 0, .forkKalloc 0 true, .forkCopy 0 true, .forkReady 0, .wait 0]

/-- The child exits, and init goes on in `wait`. -/
def exitAndReap : List Op := [.dispatch 1, .exit 1, .dispatch 0]

/-- Init sleeps in `wait` until its child exits; then `wait` returns pid 2 to it, and the stack and the page table of
the child are freed. -/
theorem no_lost_exits_reaped : ∃ w ∈ runFun (besideFun step note) (userinit, Log.start) forkAndWait, Waits w.1 0 ∧
    ∃ x ∈ runFun (besideFun step note) w exitAndReap, x.2.waits = [(1, 2, 0)] ∧ x.1.freed = [2, 3] ∧ NoLostExits x ∧
      ∀ op y, runs.step x op y → Handed x y := by
  have hrun : ∃ w ∈ runFun (besideFun step note) (userinit, Log.start) forkAndWait, Waits w.1 0 ∧
      ∃ x ∈ runFun (besideFun step note) w exitAndReap, x.2.waits = [(1, 2, 0)] ∧ x.1.freed = [2, 3] := by
    decide +kernel
  obtain ⟨w, hw, hwaits, x, hx, hreturned, hfreed⟩ := hrun
  have hstep : ∀ x op y, besideFun step note x op = some y → runs.step x op y :=
    beside_of_besideFun (S := system) fun _ _ _ h => h
  have hstart : runs.Reachable (userinit, Log.start) := .init ⟨rfl, rfl⟩
  have hreach : runs.Reachable x := reachable_runFun hstep (reachable_runFun hstep hstart hw) hx
  exact ⟨w, hw, hwaits, x, hx, hreturned, hfreed, no_lost_exits hreach⟩

end OperatingSystems.ProcTable.Exits
