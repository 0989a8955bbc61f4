import OperatingSystems.Pipes.Fifo

/-! # Runs of a pipe

The invariant holds in every run without a lost wakeup, and a lost wakeup breaks it: a reader goes on sleeping
with bytes in the pipe. -/

namespace OperatingSystems.Pipes

open Lib.Transition Lib.Ring

variable {P : Type} {s t : State P} {p q : P} {a : Pc} {w w' : Bool} {c : Chan}

theorem Inv.fresh (h : s.Fresh) : Inv s := by
  obtain ⟨hr, hw, hro, hwo, hl, hpc, hfiles, hfrees, hs, ht⟩ := h
  have hopen : ∀ w, s.pipe.isOpen w = true := fun w => by cases w; exacts [hro, hwo]
  refine ⟨⟨[], ?_, ?_⟩, fun p => ?_, ?_, ?_, ?_, fun w _ => hopen w, fun w _ => .inl (hfiles w), ?_, ?_, ?_⟩
  · rw [hs, ht]
    rfl
  · rw [hr, hw]
    exact holds_nil
  · simp [hl, hpc, Pc.hasLock]
  all_goals simp [hpc, Pc.uses, Pc.closing, Pc.chan, Pc.falling, hfrees, hro]

variable [DecidableEq P]

/-! ### Closing -/

section Close

theorem isOpen_stepClose (hne : w' ≠ w) : (stepClose s p w).pipe.isOpen w' = s.pipe.isOpen w' := by
  cases w <;> cases w' <;> first | rfl | exact absurd rfl hne

theorem isOpen_stepClose_self : (stepClose s p w).pipe.isOpen w = false := by
  cases w <;> rfl

theorem frees_stepClose : (stepClose s p w).frees =
    if (stepClose s p w).pipe.readopen = false ∧ (stepClose s p w).pipe.writeopen = false then s.frees + 1
    else s.frees := rfl

theorem pc_stepClose : (stepClose s p w).pc =
    Function.update (wakeup (if w then .nread else .nwrite) s.pc) p .out := rfl

/-- Who is not woken by the closing of an end does not wait for that end. -/
theorem blocked_stepClose (hne : c ≠ if w then .nread else .nwrite) (h : Blocked s.pipe c) :
    Blocked (stepClose s p w).pipe c := by
  cases w <;> cases c <;> first | exact h | exact absurd rfl hne

end Close

theorem Inv.close (h : Inv s) (hp : s.pc p = .close w) (hl : s.lock = none) : Inv (stepClose s p w) := by
  have hcl : (s.pc p).closing = some w := by rw [hp]; rfl
  obtain ⟨hfile, hopen⟩ := h.closing p w hcl
  have hq : Quiet s.pc (stepClose s p w).pc p := quiet_wakeup _ _ _ _
  have hself : (stepClose s p w).pc p = .out := Function.update_self ..
  have hlock : ∀ q, ¬ (s.pc q).hasLock := fun q hq => by
    have := (h.lock q).mpr hq
    rw [hl] at this
    cases this
  have hold : ∀ {q w'}, ((stepClose s p w).pc q).closing = some w' → q ≠ p ∧ (s.pc q).closing = some w' := by
    intro q w' hc
    rcases eq_or_ne q p with rfl | hne
    · rw [hself] at hc; cases hc
    · exact ⟨hne, by rwa [hq.closing hne] at hc⟩
  obtain ⟨xs, hbuf⟩ := h.buffered
  refine ⟨⟨xs, by cases w <;> exact hbuf⟩, fun q => ?_, fun q w' hw => ?_, fun q w' hw => ?_, fun q r w' hw hw' => ?_, fun w' hw => ?_,
    fun w' hw => ?_, fun q c hc => ?_, fun q c hc => ?_, ?_⟩
  · show s.lock = some q ↔ _
    rw [hl]
    rcases eq_or_ne q p with rfl | hne
    · rw [hself]; simp [Pc.hasLock]
    · rw [hq.hasLock hne]; simp [hlock q]
  · rcases eq_or_ne q p with rfl | hne
    · rw [hself] at hw; cases hw
    · rw [hq.uses hne] at hw; exact h.uses q w' hw
  · obtain ⟨hne, hcq⟩ := hold hw
    have hw' : w' ≠ w := by
      rintro rfl
      exact hne (h.closer q p w' hcq hcl)
    rw [isOpen_stepClose hw']
    exact h.closing q w' hcq
  · exact h.closer q r w' (hold hw).2 (hold hw').2
  · have hw' : w' ≠ w := by
      rintro rfl
      exact absurd (hfile.symm.trans hw) (by decide)
    rw [isOpen_stepClose hw']
    exact h.isOpen w' hw
  · have hw' : w' ≠ w := by
      rintro rfl
      exact absurd (isOpen_stepClose_self.symm.trans hw) (by decide)
    rw [isOpen_stepClose hw'] at hw
    refine (h.closed w' hw).imp_right (.imp fun r hr => ?_)
    have hne : r ≠ p := by
      rintro rfl
      exact hw' (Option.some.inj (hr.symm.trans hcl))
    rwa [hq.closing hne]
  · rw [pc_stepClose] at hc
    rcases chan_goto_wakeup hc with ⟨-, hc⟩ | ⟨-, hne, hc⟩
    · cases hc
    · exact .inl (blocked_stepClose hne (h.asleep_free hl hc))
  · rcases eq_or_ne q p with rfl | hne
    · rw [hself] at hc; cases hc
    · rw [hq.falling hne] at hc
      exact absurd (hasLock_of_falling hc) (hlock q)
  · have hzero : s.frees = 0 := by
      rw [h.frees, if_neg]
      cases w
      · exact fun h => absurd (hopen.symm.trans h.1) (by decide)
      · exact fun h => absurd (hopen.symm.trans h.2) (by decide)
    rw [frees_stepClose, hzero]

/-! ### Calls and kills -/

/-- A process moves on that has nothing to do with the lock. -/
theorem Inv.outside (h : Inv s) (hlock : a.hasLock ↔ (s.pc p).hasLock) (hwakes : a.wakes = (s.pc p).wakes)
    (hfalling : a.falling = (s.pc p).falling) (hchan : a.chan = none) {f : Bool → Bool} {k : P → Bool}
    (huses : ∀ q w, (Function.update s.pc p a q).uses = some w → f w = true)
    (hclosing : ∀ q w, (Function.update s.pc p a q).closing = some w → f w = false ∧ s.pipe.isOpen w = true)
    (hcloser : ∀ q r w, (Function.update s.pc p a q).closing = some w →
      (Function.update s.pc p a r).closing = some w → q = r)
    (hopen : ∀ w, f w = true → s.files w = true)
    (hclosed : ∀ w, s.pipe.isOpen w = true → f w = true ∨ ∃ q, (Function.update s.pc p a q).closing = some w) :
    Inv { s.goto p s.pc a with files := f, killed := k } where
  buffered := h.buffered
  lock q := by
    show s.lock = some q ↔ (Function.update s.pc p a q).hasLock
    rw [h.lock]
    rcases eq_or_ne q p with rfl | hq
    · rw [Function.update_self, hlock]
    · rw [Function.update_of_ne hq]
  uses := huses
  closing := hclosing
  closer := hcloser
  isOpen w hw := h.isOpen w (hopen w hw)
  closed := hclosed
  asleep q c hc := by
    rcases chan_goto hc with ⟨-, hc⟩ | ⟨-, hc⟩
    · rw [hchan] at hc
      cases hc
    · refine (h.asleep q c hc).imp_right fun ⟨r, hr⟩ => ⟨r, ?_⟩
      show (Function.update s.pc p a r).wakes = some c
      rcases eq_or_ne r p with rfl | hne
      · rwa [Function.update_self, hwakes]
      · rwa [Function.update_of_ne hne]
  falling q c hc := by
    refine h.falling q c ?_
    have hc : (Function.update s.pc p a q).falling = some c := hc
    rcases eq_or_ne q p with rfl | hq
    · rwa [Function.update_self, hfalling] at hc
    · rwa [Function.update_of_ne hq] at hc
  frees := h.frees

/-- It closes nothing. -/
theorem Inv.calm (h : Inv s) (hlock : a.hasLock ↔ (s.pc p).hasLock) (hwakes : a.wakes = (s.pc p).wakes)
    (hfalling : a.falling = (s.pc p).falling) (hchan : a.chan = none) {k : P → Bool}
    (huses : ∀ w, a.uses = some w → s.files w = true) (hclosing : a.closing = (s.pc p).closing) :
    Inv { s.goto p s.pc a with killed := k } := by
  have heq : ∀ q, (Function.update s.pc p a q).closing = (s.pc q).closing := fun q => by
    rcases eq_or_ne q p with rfl | hq
    · rw [Function.update_self, hclosing]
    · rw [Function.update_of_ne hq]
  refine h.outside hlock hwakes hfalling hchan (f := s.files) (fun q w hw => ?_) (fun q w hw => ?_)
    (fun q r w hq hr => ?_) (fun _ => id) (fun w hw => ?_)
  · rcases eq_or_ne q p with rfl | hq
    · rw [Function.update_self] at hw
      exact huses w hw
    · rw [Function.update_of_ne hq] at hw
      exact h.uses q w hw
  · rw [heq] at hw
    exact h.closing q w hw
  · rw [heq] at hq hr
    exact h.closer q r w hq hr
  · simp only [heq]
    exact h.closed w hw

/-- The last reference to an end is dropped. -/
theorem Inv.drop (h : Inv s) (hp : s.pc p = .out) (hfile : s.files w = true)
    (hlast : ∀ q, (s.pc q).uses ≠ some w) :
    Inv { s.goto p s.pc (.close w) with files := Function.update s.files w false } := by
  have hfiles : ∀ {w'}, s.files w' = true → w' ≠ w → Function.update s.files w false w' = true :=
    fun hw hne => by rwa [Function.update_of_ne hne]
  have hcl : ∀ {q w'}, (Function.update s.pc p (.close w) q).closing = some w' →
      q = p ∧ w' = w ∨ q ≠ p ∧ w' ≠ w ∧ (s.pc q).closing = some w' := by
    intro q w' hw
    rcases eq_or_ne q p with rfl | hq
    · rw [Function.update_self] at hw
      exact .inl ⟨rfl, (Option.some.inj hw).symm⟩
    · rw [Function.update_of_ne hq] at hw
      refine .inr ⟨hq, ?_, hw⟩
      rintro rfl
      exact absurd (hfile.symm.trans (h.closing q w' hw).1) (by decide)
  refine h.outside (by rw [hp]; rfl) (by rw [hp]; rfl) (by rw [hp]; rfl) rfl (fun q w' hw => ?_) (fun q w' hw => ?_)
    (fun q r w' hq hr => ?_) (fun w' hw => ?_) (fun w' hw => ?_)
  · rcases eq_or_ne q p with rfl | hq
    · rw [Function.update_self] at hw
      cases hw
    · rw [Function.update_of_ne hq] at hw
      refine hfiles (h.uses q w' hw) ?_
      rintro rfl
      exact hlast q hw
  · rcases hcl hw with ⟨-, rfl⟩ | ⟨-, hne, hw⟩
    · exact ⟨Function.update_self .., h.isOpen w' hfile⟩
    · rw [Function.update_of_ne hne]
      exact h.closing q w' hw
  · rcases hcl hq with ⟨rfl, rfl⟩ | ⟨-, hne, hq⟩
    · rcases hcl hr with ⟨rfl, -⟩ | ⟨-, hne, -⟩
      · rfl
      · exact absurd rfl hne
    · rcases hcl hr with ⟨-, rfl⟩ | ⟨-, -, hr⟩
      · exact absurd rfl hne
      · exact h.closer q r w' hq hr
  · rcases eq_or_ne w' w with rfl | hne
    · exact hfile
    · rwa [Function.update_of_ne hne] at hw
  · rcases eq_or_ne w' w with rfl | hne
    · exact .inr ⟨p, by rw [Function.update_self]; rfl⟩
    · rcases h.closed w' hw with hw | ⟨r, hr⟩
      · exact .inl (hfiles hw hne)
      · refine .inr ⟨r, ?_⟩
        have hrp : r ≠ p := by
          rintro rfl
          rw [hp] at hr
          cases hr
        rwa [Function.update_of_ne hrp]

theorem Inv.after (h : Inv s) {op : Op P} (hop : s.Enabled op) (hok : ¬ LostWakeup s op) : Inv (s.after op) := by
  cases op with
  | write p addr =>
    obtain ⟨hp, hf⟩ := hop
    refine h.calm (k := s.killed) (by rw [hp]; simp [Pc.hasLock]) (by rw [hp]; rfl) (by rw [hp]; rfl) rfl
      (fun w hw => ?_) (by rw [hp]; rfl)
    cases hw
    exact hf
  | read p n =>
    obtain ⟨hp, hf⟩ := hop
    refine h.calm (k := s.killed) (by rw [hp]; simp [Pc.hasLock]) (by rw [hp]; rfl) (by rw [hp]; rfl) rfl
      (fun w hw => ?_) (by rw [hp]; rfl)
    cases hw
    exact hf
  | close p w => exact h.drop hop.1 hop.2.1 hop.2.2
  | kill p =>
    exact h.calm woken_hasLock woken_wakes woken_falling woken_chan
      (fun w hw => h.uses p w (woken_uses.symm.trans hw)) woken_closing
  | run p =>
    show Inv (stepRun s p)
    unfold stepRun
    split
    · exact h
    · next rest pos hp => exact h.write hp hop hok
    · next left pos hp => exact h.read hp hop
    · next w hp => exact h.close hp (by simpa [State.Enabled, State.CanRun, hp] using hop)

/-! ### What the pipe promises -/

/-- **A loss-free FIFO**, with no wakeup missing and its page freed once. -/
structure Fifo (s : State P) : Prop where
  /-- The bytes read are the oldest bytes written; the others are in the ring. -/
  order : ∃ xs, s.stored = s.taken ++ xs ∧ (s.pipe.nwrite - s.pipe.nread).toNat = xs.length ∧
    ∀ i (h : i < xs.length), s.pipe.data ((s.pipe.nread.toNat + i) % pipesize) = xs[i]
  count : (s.pipe.nwrite - s.pipe.nread).toNat ≤ pipesize
  sleepRead : s.lock = none → ∀ p, (s.pc p).chan = some .nread →
    s.pipe.nread = s.pipe.nwrite ∧ s.pipe.writeopen = true
  sleepWrite : s.lock = none → ∀ p, (s.pc p).chan = some .nwrite →
    (s.pipe.nwrite - s.pipe.nread).toNat = pipesize ∧ s.pipe.readopen = true
  frees : s.frees = if s.pipe.readopen = false ∧ s.pipe.writeopen = false then 1 else 0
  /-- Once the page is freed, nobody is in a call. -/
  free : s.frees ≠ 0 → ∀ p, s.pc p = .out

omit [DecidableEq P] in
theorem Inv.fifo (h : Inv s) : Fifo s := by
  obtain ⟨xs, horder, hring⟩ := h.buffered
  have hlen := hring.toNat_sub (by decide)
  refine ⟨⟨xs, horder, hlen, hring.cell⟩, hlen.trans_le hring.le, fun hl p hc => h.asleep_free hl hc,
    fun hl p hc => ?_, h.frees, fun hfree p => ?_⟩
  · obtain ⟨hfull, hopen⟩ := h.asleep_free hl hc
    exact ⟨hlen.trans ((hring.full_iff (by decide)).mp hfull), hopen⟩
  · have hclosed : ∀ w, s.pipe.isOpen w = false := by
      have hfrees := h.frees
      split_ifs at hfrees with hboth
      · intro w
        cases w
        exacts [hboth.1, hboth.2]
      · exact absurd hfrees hfree
    have huses : ∀ w, (s.pc p).uses ≠ some w := fun w hw =>
      absurd ((hclosed w).symm.trans (h.isOpen w (h.uses p w hw))) (by decide)
    have hclosing : ∀ w, (s.pc p).closing ≠ some w := fun w hw =>
      absurd ((hclosed w).symm.trans (h.closing p w hw).2) (by decide)
    cases hp : s.pc p with
    | out => rfl
    | write rest pos => exact absurd (by rw [hp]; rfl) (huses true)
    | read left pos => exact absurd (by rw [hp]; rfl) (huses false)
    | close w => exact absurd (by rw [hp]; rfl) (hclosing w)

theorem step_after (op : Op P) (h : s.Enabled op) : (system P).step s op (s.after op) := ⟨h, rfl⟩

/-- The invariant holds while no wakeup is lost. -/
theorem inv_reachable (h : ((system P).only fun s op => ¬ LostWakeup s op).Reachable s) : Inv s :=
  h.invariant (fun _ => Inv.fresh) fun _ _ _ _ ih hs => by
    rw [hs.2.2]
    exact ih.after hs.2.1 hs.1

/-- A reader sleeps on, with a full pipe. -/
theorem not_fifo_of_lostWakeup {op : Op P} (h : LostWakeup s op) : ¬ Fifo (s.after op) := by
  cases op with
  | run p =>
    obtain ⟨⟨b, bs, hp⟩, hk, hfull, q, hq⟩ := h
    have hrun : s.after (.run p) = { s.goto p s.pc .out with lock := none } := by
      show stepRun s p = _
      unfold stepRun
      rw [hp]
      show (if _ then _ else _) = _
      rw [if_pos hfull, if_pos (.inr hk)]
    have hne : q ≠ p := by
      rintro rfl
      rw [hp] at hq
      cases hq
    intro hfifo
    rw [hrun] at hfifo
    have hempty : s.pipe.nread = s.pipe.nwrite :=
      (hfifo.sleepRead rfl q (by show (Function.update s.pc p .out q).chan = _; rwa [Function.update_of_ne hne])).1
    rw [hempty, pipesize] at hfull
    bv_omega
  | write | read | close | kill => exact h.elim

/-- **Pipes are loss-free FIFOs** as long as no killed writer gives up in front of a full pipe while a reader
sleeps, and that step ends it. -/
theorem fifo_iff (h : ((system P).only fun s op => ¬ LostWakeup s op).Reachable s) :
    Fifo s ∧ ∀ op t, (system P).step s op t → (Fifo t ↔ ¬ LostWakeup s op) := by
  refine ⟨(inv_reachable h).fifo, fun op t ⟨hop, ht⟩ => ⟨fun hfifo hlost => ?_, fun hok => ?_⟩⟩
  · rw [ht] at hfifo
    exact not_fifo_of_lostWakeup hlost hfifo
  · rw [ht]
    exact ((inv_reachable h).after hop hok).fifo

/-- The pipe that `pipealloc` makes. -/
def fresh (P : Type) : State P where
  pipe := ⟨fun _ => 0, 0, 0, true, true⟩
  lock := none
  pc _ := .out
  killed _ := false
  files _ := true
  frees := 0
  stored := []
  taken := []

omit [DecidableEq P] in
theorem fresh_fresh : (fresh P).Fresh := ⟨rfl, rfl, rfl, rfl, rfl, fun _ => rfl, fun _ => rfl, rfl, rfl, rfl⟩

/-- Nobody has been killed, so no wakeup is lost. -/
theorem reachable_after (h : ((system P).only fun s op => ¬ LostWakeup s op).Reachable s) (op : Op P)
    (hop : s.Enabled op) (hlive : s.killed = fun _ => false) :
    ((system P).only fun s op => ¬ LostWakeup s op).Reachable (s.after op) := by
  refine .step h (a := op) ⟨fun hlost => ?_, hop, rfl⟩
  cases op with
  | run p =>
    have hk := hlost.2.1
    rw [hlive] at hk
    cases hk
  | write | read | close | kill => exact hlost

/-- Writer 1 stores two bytes, and reader 0 takes one of them. -/
def storeAndTake : List (Op (Fin 2)) :=
  [.write 1 [7, 8], .run 1, .run 1, .run 1, .run 1, .run 1, .read 0 1, .run 0, .run 0, .run 0, .run 0, .run 0]

theorem fifo_iff_storeAndTake : ∃ s : State (Fin 2), s = storeAndTake.foldl State.after (fresh (Fin 2)) ∧
    s.stored = [7, 8] ∧ s.taken = [7] ∧ Fifo s ∧
    ∀ op t, (system (Fin 2)).step s op t → (Fifo t ↔ ¬ LostWakeup s op) := by
  have h1 := reachable_after (.init (fresh_fresh (P := Fin 2))) (.write 1 [7, 8]) ⟨rfl, rfl⟩ rfl
  have h2 := reachable_after h1 (.run 1) rfl rfl
  have h3 := reachable_after h2 (.run 1) trivial rfl
  have h4 := reachable_after h3 (.run 1) trivial rfl
  have h5 := reachable_after h4 (.run 1) trivial rfl
  have h6 := reachable_after h5 (.run 1) trivial rfl
  have h7 := reachable_after h6 (.read 0 1) ⟨rfl, rfl⟩ rfl
  have h8 := reachable_after h7 (.run 0) rfl rfl
  have h9 := reachable_after h8 (.run 0) trivial rfl
  have h10 := reachable_after h9 (.run 0) trivial rfl
  have h11 := reachable_after h10 (.run 0) trivial rfl
  have h12 := reachable_after h11 (.run 0) trivial rfl
  exact ⟨_, rfl, rfl, rfl, fifo_iff h12⟩

/-- Reader 0 waits for bytes, and writer 1 is killed on its way into a write of 513 bytes. -/
def opening : List (Op (Fin 2)) :=
  [.read 0 1, .run 0, .run 0, .run 0, .write 1 (List.replicate 513 0), .kill 1, .run 1]

theorem run_opening : ∃ t, (system (Fin 2)).Run (fresh (Fin 2)) opening t ∧
    t.pc 1 = .write (List.replicate 513 0) .loop ∧ t.pc 0 = .read 1 .asleep ∧ t.killed 1 = true ∧
    t.pipe.nread = 0 ∧ t.pipe.nwrite = 0 := by
  have h1 := (System.Run.nil (fresh (Fin 2))).snoc (step_after (.read 0 1) ⟨rfl, rfl⟩)
  have h2 := h1.snoc (step_after (.run 0) rfl)
  have h3 := h2.snoc (step_after (.run 0) trivial)
  have h4 := h3.snoc (step_after (.run 0) trivial)
  have h5 := h4.snoc (step_after (.write 1 (List.replicate 513 0)) ⟨rfl, rfl⟩)
  have h6 := h5.snoc (step_after (.kill 1) trivial)
  have h7 := h6.snoc (step_after (.run 1) rfl)
  exact ⟨_, h7, rfl, rfl, rfl, rfl, rfl⟩

/-- The writer fills the pipe. -/
theorem run_fill {n : ℕ} (hn : n ≤ pipesize) :
    ∃ t, (system (Fin 2)).Run (fresh (Fin 2)) (opening ++ List.replicate n (.run 1)) t ∧
      t.pc 1 = .write (List.replicate (pipesize - n + 1) 0) .loop ∧ t.pc 0 = .read 1 .asleep ∧
      t.killed 1 = true ∧ t.pipe.nread = 0 ∧ t.pipe.nwrite = BitVec.ofNat 32 n := by
  induction n with
  | zero =>
    obtain ⟨t, ht⟩ := run_opening
    exact ⟨t, by rwa [List.replicate_zero, List.append_nil]⟩
  | succ n ih =>
    obtain ⟨t, hrun, h1, h0, hk, hr, hw⟩ := ih (by omega)
    have hroom : ¬ t.pipe.nwrite = t.pipe.nread + BitVec.ofNat 32 pipesize := by
      rw [hw, hr, pipesize]
      rw [pipesize] at hn
      bv_omega
    rw [show pipesize - n + 1 = (pipesize - (n + 1) + 1) + 1 by omega, List.replicate_succ] at h1
    have hstep : t.after (.run 1) = { t.goto 1 t.pc (.write (List.replicate (pipesize - (n + 1) + 1) 0) .loop) with
        pipe := { t.pipe with
          data := Function.update t.pipe.data (t.pipe.nwrite.toNat % pipesize) 0
          nwrite := t.pipe.nwrite + 1 }
        stored := t.stored ++ [0] } := by
      show stepRun t 1 = _
      unfold stepRun
      rw [h1]
      exact if_neg hroom
    have hnext := hrun.snoc (step_after (.run 1) (by simp [State.Enabled, State.CanRun, h1]))
    rw [hstep, List.append_assoc, ← List.replicate_succ'] at hnext
    refine ⟨_, hnext, ?_, h0, hk, hr, ?_⟩
    · exact Function.update_self (1 : Fin 2) (Pc.write (List.replicate (pipesize - (n + 1) + 1) 0) .loop) t.pc
    · show t.pipe.nwrite + 1 = _
      rw [hw, BitVec.ofNat_add]
      rfl

/-- The reader is left asleep with 512 bytes in the pipe. -/
theorem wakeup_lost : ∃ t, (system (Fin 2)).Run (fresh (Fin 2))
    (opening ++ List.replicate 512 (.run 1) ++ [.run 1]) t ∧ ¬ Fifo t := by
  obtain ⟨t, hrun, h1, h0, hk, hr, hw⟩ := run_fill (n := 512) le_rfl
  refine ⟨_, hrun.snoc (step_after (.run 1) (by simp [State.Enabled, State.CanRun, h1])), not_fifo_of_lostWakeup ?_⟩
  refine ⟨⟨_, _, h1⟩, hk, ?_, 0, by rw [h0]; rfl⟩
  rw [hw, hr]
  rfl

end OperatingSystems.Pipes
