import OperatingSystems.Pipes.Steps

/-! # Pipes are loss-free FIFOs, but for one wakeup

* `Inv`: the ring holds what was stored and not yet taken; who sleeps has a reason to (`Blocked`), or the
  process with the lock is about to wake them.
* `Quiet`: what a step of one process leaves to the others.
* `LostWakeup`: a killed writer finds the pipe full while a reader sleeps, and returns without waking it. -/

namespace OperatingSystems.Pipes

open Lib.Transition Lib.Ring

variable {P : Type} {s t : State P} {p q : P} {a : Pc} {w : Bool} {c : Chan}

/-! ### Positions -/

/-- The process has the lock. -/
def Pc.hasLock : Pc → Prop
  | .write _ pos => pos ≠ .acquire ∧ pos ≠ .asleep
  | .read _ pos => pos ≠ .acquire ∧ pos ≠ .asleep
  | _ => False

/-- The end that the process is closing. -/
def Pc.closing : Pc → Option Bool
  | .close w => some w
  | _ => none

/-- The channel that a process with the lock will wake up before it gives the lock away. -/
def Pc.wakes : Pc → Option Chan
  | .write _ .loop => some .nread
  | .write _ .wake => some .nread
  | .write _ .done => some .nread
  | .read _ .copy => some .nwrite
  | .read _ .done => some .nwrite
  | _ => none

/-- The channel that a process with the lock has decided to sleep on. -/
def Pc.falling : Pc → Option Chan
  | .write _ .wake => some .nwrite
  | .write _ .sleep => some .nwrite
  | .read _ .sleep => some .nread
  | _ => none

/-- The end is open. -/
def Pipe.isOpen (pipe : Pipe) : Bool → Bool
  | true => pipe.writeopen
  | false => pipe.readopen

/-- The reason to sleep: nothing to read from an open end, no room for an open end. -/
def Blocked (pipe : Pipe) : Chan → Prop
  | .nread => pipe.nread = pipe.nwrite ∧ pipe.writeopen = true
  | .nwrite => pipe.nwrite = pipe.nread + BitVec.ofNat 32 pipesize ∧ pipe.readopen = true

section Positions

@[simp] theorem woken_uses : a.woken.uses = a.uses := by
  unfold Pc.woken
  split <;> rfl

@[simp] theorem woken_closing : a.woken.closing = a.closing := by
  unfold Pc.woken
  split <;> rfl

@[simp] theorem woken_chan : a.woken.chan = none := by
  unfold Pc.woken
  split
  · rfl
  · rfl
  · next h1 h2 => unfold Pc.chan; split <;> simp_all

@[simp] theorem woken_hasLock : a.woken.hasLock ↔ a.hasLock := by
  unfold Pc.woken
  split <;> simp [Pc.hasLock]

@[simp] theorem woken_wakes : a.woken.wakes = a.wakes := by
  unfold Pc.woken
  split <;> rfl

@[simp] theorem woken_falling : a.woken.falling = a.falling := by
  unfold Pc.woken
  split <;> rfl

theorem hasLock_of_wakes (h : a.wakes = some c) : a.hasLock := by
  unfold Pc.wakes at h
  split at h <;> simp_all [Pc.hasLock]

theorem hasLock_of_falling (h : a.falling = some c) : a.hasLock := by
  unfold Pc.falling at h
  split at h <;> simp_all [Pc.hasLock]

theorem uses_of_chan (h : a.chan = some c) : a.uses = some (decide (c = .nwrite)) := by
  unfold Pc.chan at h
  split at h
  · cases h; rfl
  · cases h; rfl
  · cases h

end Positions

/-! ### The invariant -/

/-- What is in the ring. -/
def Buffered (s : State P) (xs : List Byte) : Prop :=
  s.stored = s.taken ++ xs ∧ Holds pipesize s.pipe.data s.pipe.nread s.pipe.nwrite xs

/-- **The invariant of a pipe.** -/
structure Inv (s : State P) : Prop where
  buffered : ∃ xs, Buffered s xs
  lock : ∀ p, s.lock = some p ↔ (s.pc p).hasLock
  uses : ∀ p w, (s.pc p).uses = some w → s.files w = true
  closing : ∀ p w, (s.pc p).closing = some w → s.files w = false ∧ s.pipe.isOpen w = true
  closer : ∀ p q w, (s.pc p).closing = some w → (s.pc q).closing = some w → p = q
  isOpen : ∀ w, s.files w = true → s.pipe.isOpen w = true
  closed : ∀ w, s.pipe.isOpen w = true → s.files w = true ∨ ∃ p, (s.pc p).closing = some w
  asleep : ∀ p c, (s.pc p).chan = some c → Blocked s.pipe c ∨ ∃ q, (s.pc q).wakes = some c
  falling : ∀ p c, (s.pc p).falling = some c → Blocked s.pipe c
  frees : s.frees = if s.pipe.readopen = false ∧ s.pipe.writeopen = false then 1 else 0

/-- The others are where they were, or were woken. -/
def Quiet (pc pc' : P → Pc) (p : P) : Prop := ∀ q, q ≠ p → pc' q = pc q ∨ pc' q = (pc q).woken

theorem quiet_update [DecidableEq P] (pc : P → Pc) (p : P) (a : Pc) : Quiet pc (Function.update pc p a) p :=
  fun _ hq => .inl (Function.update_of_ne hq _ _)

theorem quiet_wakeup [DecidableEq P] (pc : P → Pc) (c : Chan) (p : P) (a : Pc) :
    Quiet pc (Function.update (wakeup c pc) p a) p := by
  intro q hq
  rw [Function.update_of_ne hq]
  unfold wakeup
  split_ifs
  · exact .inr rfl
  · exact .inl rfl

namespace Quiet

variable {pc pc' : P → Pc}

theorem uses (h : Quiet pc pc' p) (hq : q ≠ p) : (pc' q).uses = (pc q).uses := by
  rcases h q hq with h | h <;> simp [h]

theorem closing (h : Quiet pc pc' p) (hq : q ≠ p) : (pc' q).closing = (pc q).closing := by
  rcases h q hq with h | h <;> simp [h]

theorem hasLock (h : Quiet pc pc' p) (hq : q ≠ p) : (pc' q).hasLock ↔ (pc q).hasLock := by
  rcases h q hq with h | h <;> simp [h]

theorem falling (h : Quiet pc pc' p) (hq : q ≠ p) : (pc' q).falling = (pc q).falling := by
  rcases h q hq with h | h <;> simp [h]

theorem chan (h : Quiet pc pc' p) (hq : q ≠ p) (hc : (pc' q).chan = some c) : (pc q).chan = some c := by
  rcases h q hq with h | h
  · rwa [h] at hc
  · simp [h] at hc

end Quiet

/-- After a wakeup nobody else sleeps on the channel. -/
theorem chan_wakeup {pc : P → Pc} : (wakeup c pc q).chan ≠ some c := by
  unfold wakeup
  split_ifs with h
  · simp
  · exact h

/-- **A step of a process with the lock, or that takes it.** -/
theorem Inv.step (h : Inv s) (hpc : t.pc p = a) (hquiet : Quiet s.pc t.pc p)
    (hheld : s.lock = none ∨ s.lock = some p)
    (hlock : a.hasLock ∧ t.lock = some p ∨ ¬ a.hasLock ∧ t.lock = none)
    (hfiles : t.files = s.files) (hopen : ∀ w, t.pipe.isOpen w = s.pipe.isOpen w) (hfrees : t.frees = s.frees)
    (hbuf : ∃ xs, Buffered t xs) (huses : ∀ w, a.uses = some w → (s.pc p).uses = some w)
    (hclose : a.closing = none ∧ (s.pc p).closing = none)
    (hasleep : ∀ q c, (t.pc q).chan = some c → Blocked t.pipe c ∨ a.wakes = some c)
    (hfalling : ∀ c, a.falling = some c → Blocked t.pipe c) : Inv t where
  buffered := hbuf
  lock q := by
    rcases eq_or_ne q p with rfl | hq
    · rw [hpc]
      rcases hlock with ⟨ha, hl⟩ | ⟨ha, hl⟩ <;> simp [ha, hl]
    · rw [hquiet.hasLock hq, ← h.lock]
      rcases hlock with ⟨-, hl⟩ | ⟨-, hl⟩ <;> rcases hheld with hl' | hl' <;> simp [hl, hl', hq.symm]
  uses q w hw := by
    rw [hfiles]
    rcases eq_or_ne q p with rfl | hq
    · rw [hpc] at hw; exact h.uses q w (huses w hw)
    · rw [hquiet.uses hq] at hw; exact h.uses q w hw
  closing q w hw := by
    rw [hfiles, hopen]
    rcases eq_or_ne q p with rfl | hq
    · rw [hpc, hclose.1] at hw; cases hw
    · rw [hquiet.closing hq] at hw; exact h.closing q w hw
  closer q r w hw hw' := by
    have hold : ∀ {q}, (t.pc q).closing = some w → (s.pc q).closing = some w := by
      intro q hw
      rcases eq_or_ne q p with rfl | hq
      · rw [hpc, hclose.1] at hw; cases hw
      · rwa [hquiet.closing hq] at hw
    exact h.closer q r w (hold hw) (hold hw')
  isOpen w hw := by
    rw [hopen]
    rw [hfiles] at hw
    exact h.isOpen w hw
  closed w hw := by
    rw [hfiles]
    rw [hopen] at hw
    rcases h.closed w hw with hw | ⟨q, hq⟩
    · exact .inl hw
    · have hne : q ≠ p := by
        rintro rfl
        rw [hclose.2] at hq
        cases hq
      exact .inr ⟨q, by rwa [hquiet.closing hne]⟩
  asleep q c hc := (hasleep q c hc).imp_right fun hw => ⟨p, by rwa [hpc]⟩
  falling q c hc := by
    rcases eq_or_ne q p with rfl | hq
    · rw [hpc] at hc; exact hfalling c hc
    · rw [hquiet.falling hq] at hc
      have hl := (h.lock q).mpr (hasLock_of_falling hc)
      rcases hheld with hn | hn <;> rw [hn] at hl
      · cases hl
      · exact absurd (Option.some.inj hl).symm hq
  frees := by
    have hr : t.pipe.readopen = s.pipe.readopen := hopen false
    have hw : t.pipe.writeopen = s.pipe.writeopen := hopen true
    rw [hfrees, hr, hw]
    exact h.frees

/-- While `p` has the lock, a sleeper has its reason or is about to be woken by `p`. -/
theorem Inv.asleep_held (h : Inv s) (hl : s.lock = some p) (hc : (s.pc q).chan = some c) :
    Blocked s.pipe c ∨ (s.pc p).wakes = some c := by
  refine (h.asleep q c hc).imp_right fun ⟨r, hr⟩ => ?_
  have := (h.lock r).mpr (hasLock_of_wakes hr)
  rw [hl] at this
  rwa [Option.some.inj this]

/-- While the lock is free, a sleeper has its reason. -/
theorem Inv.asleep_free (h : Inv s) (hl : s.lock = none) (hc : (s.pc q).chan = some c) : Blocked s.pipe c := by
  refine (h.asleep q c hc).resolve_right fun ⟨r, hr⟩ => ?_
  have := (h.lock r).mpr (hasLock_of_wakes hr)
  rw [hl] at this
  cases this

/-- A full pipe has bytes to read. -/
theorem Inv.not_blocked_both (h : Inv s) : ¬ (Blocked s.pipe .nread ∧ Blocked s.pipe .nwrite) := by
  rintro ⟨⟨h1, -⟩, h2, -⟩
  obtain ⟨xs, -, hx⟩ := h.buffered
  have hempty := (hx.eq_iff (by decide)).mp h1
  have hfull := (hx.full_iff (by decide)).mp h2
  rw [hempty] at hfull
  exact absurd hfull (by decide)

/-- A sleeping reader has the read end open. -/
theorem Inv.readopen (h : Inv s) (hc : (s.pc q).chan = some .nread) : s.pipe.readopen = true :=
  h.isOpen false (h.uses q false (uses_of_chan hc))

/-! ### The steps -/

variable [DecidableEq P]

/-- `p` moves on, and wakes up nobody. -/
theorem chan_goto {pc : P → Pc} (h : (Function.update pc p a q).chan = some c) :
    q = p ∧ a.chan = some c ∨ q ≠ p ∧ (pc q).chan = some c := by
  rcases eq_or_ne q p with rfl | hq
  · rw [Function.update_self] at h
    exact .inl ⟨rfl, h⟩
  · rw [Function.update_of_ne hq] at h
    exact .inr ⟨hq, h⟩

/-- `p` moves on with a wakeup: nobody else sleeps on that channel any more. -/
theorem chan_goto_wakeup {pc : P → Pc} {c' : Chan} (h : (Function.update (wakeup c' pc) p a q).chan = some c) :
    q = p ∧ a.chan = some c ∨ q ≠ p ∧ c ≠ c' ∧ (pc q).chan = some c := by
  rcases chan_goto h with h | ⟨hq, h⟩
  · exact .inl h
  · have hne : c ≠ c' := by
      rintro rfl
      exact chan_wakeup h
    refine .inr ⟨hq, hne, ?_⟩
    unfold wakeup at h
    split_ifs at h with hc
    · simp at h
    · exact h

/-- A killed writer finds the pipe full, and a reader sleeps. -/
def LostWakeup (s : State P) : Op P → Prop
  | .run p => (∃ b bs, s.pc p = .write (b :: bs) .loop) ∧ s.killed p = true ∧
      s.pipe.nwrite = s.pipe.nread + BitVec.ofNat 32 pipesize ∧ ∃ q, (s.pc q).chan = some .nread
  | _ => False

/-- `p` goes on with the lock, or gives it away when it has nobody to wake. -/
theorem Inv.asleep_goto (h : Inv s) (hl : s.lock = some p) (ha : a.chan = none)
    (hw : (s.pc p).wakes = some c → a.wakes = some c) (hc : (Function.update s.pc p a q).chan = some c) :
    Blocked s.pipe c ∨ a.wakes = some c := by
  rcases chan_goto hc with ⟨-, hc⟩ | ⟨-, hc⟩
  · rw [ha] at hc
    cases hc
  · exact (h.asleep_held hl hc).imp_right hw

/-- `p` has woken up whom it had to. -/
theorem Inv.asleep_wakeup (h : Inv s) {c' : Chan} (hl : s.lock = some p) (ha : a.chan = none)
    (hw : (s.pc p).wakes = some c') (hc : (Function.update (wakeup c' s.pc) p a q).chan = some c) :
    Blocked s.pipe c := by
  rcases chan_goto_wakeup hc with ⟨-, hc⟩ | ⟨-, hne, hc⟩
  · rw [ha] at hc
    cases hc
  · refine (h.asleep_held hl hc).resolve_right fun hw' => hne ?_
    exact Option.some.inj (hw'.symm.trans hw)

/-- `p` falls asleep, and gives the lock away. -/
theorem Inv.asleep_sleep (h : Inv s) {c' : Chan} (hl : s.lock = some p) (ha : a.chan = some c')
    (hf : (s.pc p).falling = some c') (hw : (s.pc p).wakes = none)
    (hc : (Function.update s.pc p a q).chan = some c) : Blocked s.pipe c := by
  rcases chan_goto hc with ⟨-, hc⟩ | ⟨-, hc⟩
  · rw [ha] at hc
    cases hc
    exact h.falling p _ hf
  · refine (h.asleep_held hl hc).resolve_right fun hw' => ?_
    rw [hw] at hw'
    cases hw'

theorem Inv.write (h : Inv s) {rest : List Byte} {pos : WriteAt} (hp : s.pc p = .write rest pos)
    (hrun : s.CanRun p) (hok : ¬ LostWakeup s (.run p)) : Inv (stepWrite s p rest pos) := by
  have hclose : (s.pc p).closing = none := by rw [hp]; rfl
  have huses : (s.pc p).uses = some true := by rw [hp]; rfl
  have hheld : pos ≠ .acquire → pos ≠ .asleep → s.lock = some p := fun h1 h2 =>
    (h.lock p).mpr (by rw [hp]; exact ⟨h1, h2⟩)
  have hout : ∀ w, Pc.out.uses = some w → (s.pc p).uses = some w := nofun
  have hin : ∀ {rest' : List Byte} {pos' : WriteAt} w, (Pc.write rest' pos').uses = some w →
      (s.pc p).uses = some w := fun w hw => huses.trans hw
  cases pos with
  | acquire =>
    have hl : s.lock = none := by simpa [State.CanRun, hp] using hrun
    refine h.step (p := p) (Function.update_self ..) (quiet_update _ _ _) (.inl hl) (.inl ⟨by simp [Pc.hasLock], rfl⟩)
      rfl (fun _ => rfl) rfl h.buffered hin ⟨rfl, hclose⟩ (fun q c hc => ?_) nofun
    rcases chan_goto hc with ⟨-, hc⟩ | ⟨-, hc⟩
    · cases hc
    · exact .inl (h.asleep_free hl hc)
  | loop =>
    have hl := hheld (by simp) (by simp)
    have hw : (s.pc p).wakes = some .nread := by rw [hp]; rfl
    cases rest with
    | nil =>
      exact h.step (p := p) (Function.update_self ..) (quiet_update _ _ _) (.inr hl) (.inl ⟨by simp [Pc.hasLock], hl⟩)
        rfl (fun _ => rfl) rfl h.buffered hin ⟨rfl, hclose⟩
        (fun q c hc => h.asleep_goto hl rfl (fun hc' => hw.symm.trans hc') hc) nofun
    | cons b bs =>
      unfold stepWrite
      dsimp only
      split_ifs with hfull hstop
      · -- the writer gives up
        refine h.step (p := p) (Function.update_self ..) (quiet_update _ _ _) (.inr hl)
          (.inr ⟨by simp [Pc.hasLock], rfl⟩) rfl (fun _ => rfl) rfl h.buffered hout ⟨rfl, hclose⟩
          (fun q c hc => ?_) nofun
        rcases chan_goto hc with ⟨-, hc⟩ | ⟨-, hc⟩
        · cases hc
        refine .inl ((h.asleep_held hl hc).resolve_right fun hc' => ?_)
        obtain rfl : Chan.nread = c := Option.some.inj (hw.symm.trans hc')
        rcases hstop with hr | hk
        · exact absurd (h.readopen hc) (by simp [hr])
        · exact hok ⟨⟨b, bs, hp⟩, hk, hfull, q, hc⟩
      · have hr : s.pipe.readopen = true := by
          rw [not_or] at hstop
          simpa using hstop.1
        refine h.step (p := p) (Function.update_self ..) (quiet_update _ _ _) (.inr hl)
          (.inl ⟨by simp [Pc.hasLock], hl⟩) rfl (fun _ => rfl) rfl h.buffered hin ⟨rfl, hclose⟩
          (fun q c hc => h.asleep_goto hl rfl (fun hc' => hw.symm.trans hc') hc) fun c hc => ?_
        cases hc
        exact ⟨hfull, hr⟩
      · obtain ⟨xs, hx, hring⟩ := h.buffered
        have hlt : xs.length < pipesize :=
          lt_of_le_of_ne hring.le fun heq => hfull ((hring.full_iff (by decide)).mpr heq)
        refine h.step (p := p) (Function.update_self ..) (quiet_update _ _ _) (.inr hl)
          (.inl ⟨by simp [Pc.hasLock], hl⟩) rfl (fun w => by cases w <;> rfl) rfl
          ⟨xs ++ [b], ?_, hring.push (by decide) hlt⟩ hin ⟨rfl, hclose⟩ (fun q c hc => ?_) nofun
        · show s.stored ++ [b] = s.taken ++ (xs ++ [b])
          rw [hx, List.append_assoc]
        · rcases chan_goto hc with ⟨-, hc⟩ | ⟨-, hc⟩
          · cases hc
          · cases c with
            | nread => exact .inr rfl
            | nwrite =>
              rcases h.asleep_held hl hc with hb | hc'
              · exact absurd hb.1 hfull
              · rw [hw] at hc'
                cases hc'
  | wake =>
    have hl := hheld (by simp) (by simp)
    refine h.step (p := p) (Function.update_self ..) (quiet_wakeup _ _ _ _) (.inr hl) (.inl ⟨by simp [Pc.hasLock], hl⟩)
      rfl (fun _ => rfl) rfl h.buffered hin ⟨rfl, hclose⟩
      (fun q c hc => .inl (h.asleep_wakeup hl rfl (by rw [hp]; rfl) hc)) fun c hc => ?_
    cases hc
    exact h.falling p .nwrite (by rw [hp]; rfl)
  | sleep =>
    have hl := hheld (by simp) (by simp)
    exact h.step (p := p) (Function.update_self ..) (quiet_update _ _ _) (.inr hl) (.inr ⟨by simp [Pc.hasLock], rfl⟩)
      rfl (fun _ => rfl) rfl h.buffered hin ⟨rfl, hclose⟩
      (fun q c hc => .inl (h.asleep_sleep hl rfl (by rw [hp]; rfl) (by rw [hp]; rfl) hc)) nofun
  | asleep => exact h
  | done =>
    have hl := hheld (by simp) (by simp)
    exact h.step (p := p) (Function.update_self ..) (quiet_wakeup _ _ _ _) (.inr hl) (.inr ⟨by simp [Pc.hasLock], rfl⟩)
      rfl (fun _ => rfl) rfl h.buffered hout ⟨rfl, hclose⟩
      (fun q c hc => .inl (h.asleep_wakeup hl rfl (by rw [hp]; rfl) hc)) nofun

theorem Inv.read (h : Inv s) {left : ℕ} {pos : ReadAt} (hp : s.pc p = .read left pos) (hrun : s.CanRun p) :
    Inv (stepRead s p left pos) := by
  have hclose : (s.pc p).closing = none := by rw [hp]; rfl
  have huses : (s.pc p).uses = some false := by rw [hp]; rfl
  have hheld : pos ≠ .acquire → pos ≠ .asleep → s.lock = some p := fun h1 h2 =>
    (h.lock p).mpr (by rw [hp]; exact ⟨h1, h2⟩)
  have hout : ∀ w, Pc.out.uses = some w → (s.pc p).uses = some w := nofun
  have hin : ∀ {left' : ℕ} {pos' : ReadAt} w, (Pc.read left' pos').uses = some w →
      (s.pc p).uses = some w := fun w hw => huses.trans hw
  cases pos with
  | acquire =>
    have hl : s.lock = none := by simpa [State.CanRun, hp] using hrun
    refine h.step (p := p) (Function.update_self ..) (quiet_update _ _ _) (.inl hl) (.inl ⟨by simp [Pc.hasLock], rfl⟩)
      rfl (fun _ => rfl) rfl h.buffered hin ⟨rfl, hclose⟩ (fun q c hc => ?_) nofun
    rcases chan_goto hc with ⟨-, hc⟩ | ⟨-, hc⟩
    · cases hc
    · exact .inl (h.asleep_free hl hc)
  | test =>
    have hl := hheld (by simp) (by simp)
    have hw : (s.pc p).wakes = none := by rw [hp]; rfl
    unfold stepRead
    dsimp only
    split_ifs with hempty hk
    · exact h.step (p := p) (Function.update_self ..) (quiet_update _ _ _) (.inr hl)
        (.inr ⟨by simp [Pc.hasLock], rfl⟩) rfl (fun _ => rfl) rfl h.buffered hout ⟨rfl, hclose⟩
        (fun q c hc => h.asleep_goto hl rfl (fun hc' => by rw [hw] at hc'; cases hc') hc) nofun
    · refine h.step (p := p) (Function.update_self ..) (quiet_update _ _ _) (.inr hl)
        (.inl ⟨by simp [Pc.hasLock], hl⟩) rfl (fun _ => rfl) rfl h.buffered hin ⟨rfl, hclose⟩
        (fun q c hc => h.asleep_goto hl rfl (fun hc' => by rw [hw] at hc'; cases hc') hc) fun c hc => ?_
      cases hc
      exact hempty
    · exact h.step (p := p) (Function.update_self ..) (quiet_update _ _ _) (.inr hl)
        (.inl ⟨by simp [Pc.hasLock], hl⟩) rfl (fun _ => rfl) rfl h.buffered hin ⟨rfl, hclose⟩
        (fun q c hc => h.asleep_goto hl rfl (fun hc' => by rw [hw] at hc'; cases hc') hc) nofun
  | sleep =>
    have hl := hheld (by simp) (by simp)
    exact h.step (p := p) (Function.update_self ..) (quiet_update _ _ _) (.inr hl) (.inr ⟨by simp [Pc.hasLock], rfl⟩)
      rfl (fun _ => rfl) rfl h.buffered hin ⟨rfl, hclose⟩
      (fun q c hc => .inl (h.asleep_sleep hl rfl (by rw [hp]; rfl) (by rw [hp]; rfl) hc)) nofun
  | asleep => exact h
  | copy =>
    have hl := hheld (by simp) (by simp)
    have hw : (s.pc p).wakes = some .nwrite := by rw [hp]; rfl
    cases left with
    | zero =>
      exact h.step (p := p) (Function.update_self ..) (quiet_update _ _ _) (.inr hl)
        (.inl ⟨by simp [Pc.hasLock], hl⟩) rfl (fun _ => rfl) rfl h.buffered hin ⟨rfl, hclose⟩
        (fun q c hc => h.asleep_goto hl rfl (fun hc' => hw.symm.trans hc') hc) nofun
    | succ n =>
      unfold stepRead
      dsimp only
      split_ifs with hempty
      · exact h.step (p := p) (Function.update_self ..) (quiet_update _ _ _) (.inr hl)
          (.inl ⟨by simp [Pc.hasLock], hl⟩) rfl (fun _ => rfl) rfl h.buffered hin ⟨rfl, hclose⟩
          (fun q c hc => h.asleep_goto hl rfl (fun hc' => hw.symm.trans hc') hc) nofun
      · obtain ⟨xs, hx, hring⟩ := h.buffered
        cases xs with
        | nil => exact absurd ((hring.eq_iff (by decide)).mpr rfl) hempty
        | cons x xs =>
          obtain ⟨hcell, hring'⟩ := hring.pop (by decide)
          refine h.step (p := p) (Function.update_self ..) (quiet_update _ _ _) (.inr hl)
            (.inl ⟨by simp [Pc.hasLock], hl⟩) rfl (fun w => by cases w <;> rfl) rfl
            ⟨xs, ?_, hring'⟩ hin ⟨rfl, hclose⟩ (fun q c hc => ?_) nofun
          · show s.stored = s.taken ++ [s.pipe.data (s.pipe.nread.toNat % pipesize)] ++ xs
            rw [hx, hcell, List.append_assoc]
            rfl
          · rcases chan_goto hc with ⟨-, hc⟩ | ⟨-, hc⟩
            · cases hc
            · cases c with
              | nwrite => exact .inr rfl
              | nread =>
                rcases h.asleep_held hl hc with hb | hc'
                · exact absurd hb.1 hempty
                · rw [hw] at hc'
                  cases hc'
  | done =>
    have hl := hheld (by simp) (by simp)
    exact h.step (p := p) (Function.update_self ..) (quiet_wakeup _ _ _ _) (.inr hl) (.inr ⟨by simp [Pc.hasLock], rfl⟩)
      rfl (fun _ => rfl) rfl h.buffered hout ⟨rfl, hclose⟩
      (fun q c hc => .inl (h.asleep_wakeup hl rfl (by rw [hp]; rfl) hc)) nofun

end OperatingSystems.Pipes
