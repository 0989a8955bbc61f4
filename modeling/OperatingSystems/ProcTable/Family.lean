import OperatingSystems.ProcTable.Changes

/-! # Parents and children

`Family`: children of `fork` are `EMBRYO`s, parents are alive, and who sleeps in `wait` has no zombie among the
children. `exit` wakes up those for whom that would change. -/

namespace OperatingSystems.ProcTable.Exits

open OperatingSystems.Lib.Transition OperatingSystems.ProcTable

variable {k k' : Kernel} {p q r np : Fin nproc}

/-- **Who is related to whom.** -/
structure Family (k : Kernel) : Prop where
  child : ∀ p np, (k.frame p).child = some np →
    (k.proc np).state = .embryo ∧ ((k.proc p).state = .runnable ∨ (k.proc p).state = .running)
  child_inj : ∀ p q np, (k.frame p).child = some np → (k.frame q).child = some np → p = q
  busy : ∀ q, (k.proc q).state = .embryo → ∃ p, (k.frame p).child = some q
  ready : ∀ p np, k.frame p = .ready np → (k.proc np).parent = some p
  live : ∀ q p, (k.proc q).parent = some p → Live k p
  orphan : ∀ q, (k.proc q).state ≠ .unused → (k.proc q).state ≠ .embryo → q ≠ initproc → (k.proc q).parent ≠ none
  init : Live k initproc
  root : (k.proc initproc).parent = none
  irrefl : ∀ q, (k.proc q).parent ≠ some q
  waits : ∀ p q, Waits k p → (k.proc q).parent = some p → (k.proc q).state ≠ .zombie

theorem Live.ne (h : Live k q) :
    (k.proc q).state ≠ .unused ∧ (k.proc q).state ≠ .embryo ∧ (k.proc q).state ≠ .zombie := by
  rcases h with h | h | h <;> simp [h]

theorem Family.calm (h : Family k) (hc : Calm k k') : Family k' where
  child p np hnp := by
    rw [hc.child] at hnp
    obtain ⟨hemb, hp⟩ := h.child p np hnp
    refine ⟨(hc.state_iff (.inr (.inl rfl))).mpr hemb, ?_⟩
    rcases hc.state p with hs | ⟨-, hs | hs | ⟨-, hs⟩⟩
    · rwa [hs]
    · exact .inl hs
    · exact .inr hs
    · rw [hs] at hnp
      cases hnp
  child_inj p q np hp hq := h.child_inj p q np (hc.child.symm.trans hp) (hc.child.symm.trans hq)
  busy q hq := by
    obtain ⟨p, hp⟩ := h.busy q ((hc.state_iff (.inr (.inl rfl))).mp hq)
    exact ⟨p, hc.child.trans hp⟩
  ready p np hf := (hc.parent np).trans (h.ready p np ((hc.frame_iff (by simp [Frame.child])).mp hf))
  live q p hp := hc.live (h.live q p ((hc.parent q).symm.trans hp))
  orphan q hu he hi hn := by
    refine h.orphan q ?_ ?_ hi ((hc.parent q).symm.trans hn)
    · rwa [Ne, ← hc.state_iff (.inl rfl)]
    · rwa [Ne, ← hc.state_iff (.inr (.inl rfl))]
  init := hc.live h.init
  root := (hc.parent _).trans h.root
  irrefl q hq := h.irrefl q ((hc.parent q).symm.trans hq)
  waits p q hp hq hz := by
    have hq := (hc.parent q).symm.trans hq
    have hz := (hc.state_iff (.inr (.inr rfl))).mp hz
    rcases hc.waits p hp with hp | hnone
    · exact h.waits p q hp hq hz
    · exact hnone q hq hz

/-- An entry without a live process changes, and gets no zombie. -/
theorem Family.entry (h : Family k) {x : Proc} (hnp : ¬ Live k np) (hproc : k'.proc = Function.update k.proc np x)
    (hx : x.state = .unused ∨ x.state = .embryo ∨ x.state = .runnable ∧ x.parent ≠ none)
    (hparent : x.parent = (k.proc np).parent ∨ x.parent = none ∨ ∃ p, x.parent = some p ∧ Live k p)
    (hchild : ∀ r m, (k'.frame r).child = some m → (k.frame r).child = some m ∧ m ≠ np ∨
      m = np ∧ r = p ∧ x.state = .embryo ∧ (k.proc p).state = .running)
    (hready : ∀ r m, k'.frame r = .ready m → k.frame r = .ready m ∧ m ≠ np ∨ m = np ∧ x.parent = some r)
    (hbusy : ∀ r q, (k.frame r).child = some q → q ≠ np → (k'.frame r).child = some q)
    (hnew : x.state = .embryo → ∃ r, (k'.frame r).child = some np) : Family k' := by
  have hself : k'.proc np = x := by rw [hproc, Function.update_self]
  have hne : ∀ {q}, q ≠ np → k'.proc q = k.proc q := fun hq => by rw [hproc, Function.update_of_ne hq]
  have hlive : ∀ {q}, Live k q → q ≠ np ∧ Live k' q := by
    intro q hq
    have hqn : q ≠ np := by
      rintro rfl
      exact hnp hq
    refine ⟨hqn, ?_⟩
    unfold Live at *
    rwa [hne hqn]
  have hxp : ∀ {p}, x.parent = some p → Live k p := by
    intro p hp
    rcases hparent with hx | hx | ⟨r, hx, hr⟩
    · exact h.live np p (hx.symm.trans hp)
    · rw [hx] at hp
      cases hp
    · exact Option.some.inj (hx.symm.trans hp) ▸ hr
  refine ⟨fun r m hm => ?_, fun r s m hr hs => ?_, fun q hq => ?_, fun r m hm => ?_, fun q r hr => ?_,
    fun q hu he hi hn => ?_, (hlive h.init).2, ?_, fun q hq => ?_, fun r q hr hq hz => ?_⟩
  · rcases hchild r m hm with ⟨hm, hmn⟩ | ⟨rfl, rfl, hx, hr⟩
    · obtain ⟨hemb, hr⟩ := h.child r m hm
      have hrn : r ≠ np := (hlive (.inr hr)).1
      rw [hne hmn, hne hrn]
      exact ⟨hemb, hr⟩
    · rw [hself, hne (hlive (.inr (.inr hr))).1]
      exact ⟨hx, .inr hr⟩
  · rcases hchild r m hr with ⟨hr, hmn⟩ | ⟨rfl, rfl, -⟩ <;> rcases hchild s m hs with ⟨hs, hmn'⟩ | ⟨he, rfl, -⟩
    · exact h.child_inj r s m hr hs
    · exact absurd he hmn
    · exact absurd rfl hmn'
    · rfl
  · rcases eq_or_ne q np with rfl | hqn
    · rw [hself] at hq
      exact hnew hq
    · rw [hne hqn] at hq
      obtain ⟨r, hr⟩ := h.busy q hq
      exact ⟨r, hbusy r q hr hqn⟩
  · rcases hready r m hm with ⟨hm, hmn⟩ | ⟨rfl, hr⟩
    · rw [hne hmn]
      exact h.ready r m hm
    · rwa [hself]
  · rcases eq_or_ne q np with rfl | hqn
    · rw [hself] at hr
      exact (hlive (hxp hr)).2
    · rw [hne hqn] at hr
      exact (hlive (h.live q r hr)).2
  · rcases eq_or_ne q np with rfl | hqn
    · rw [hself] at hu he hn
      rcases hx with hx | hx | ⟨-, hx⟩
      exacts [hu hx, he hx, hx hn]
    · rw [hne hqn] at hu he hn
      exact h.orphan q hu he hi hn
  · rw [hne (hlive h.init).1]
    exact h.root
  · rcases eq_or_ne q np with rfl | hqn
    · rw [hself] at hq
      exact hnp (hxp hq)
    · rw [hne hqn] at hq
      exact h.irrefl q hq
  · unfold Waits at hr
    rcases eq_or_ne q np with rfl | hqn
    · rw [hself] at hz
      rcases hx with hx | hx | ⟨hx, -⟩ <;> rw [hz] at hx <;> cases hx
    · rw [hne hqn] at hq hz
      have hrn := (hlive (h.live q r hq)).1
      rw [hne hrn] at hr
      exact h.waits r q hr hq hz

/-- The frames after `p` has moved on. -/
theorem frame_of_goto {proc : Fin nproc → Proc} {frame f : Frame} (h : (k.goto p frame proc).frame r = f) :
    r = p ∧ frame = f ∨ r ≠ p ∧ k.frame r = f := by
  change Function.update k.frame p frame r = f at h
  rcases eq_or_ne r p with rfl | hr
  · rw [Function.update_self] at h
    exact .inl ⟨rfl, h⟩
  · rw [Function.update_of_ne hr] at h
    exact .inr ⟨hr, h⟩

/-- `p` leaves `fork`, or gets the child. -/
theorem Family.goto (h : Family k) (np : Fin nproc) (x : Proc) (frame : Frame) (hp : (k.proc p).state = .running)
    (hold : (k.frame p).child = some np ∨ (k.frame p).child = none ∧ (k.proc np).state = .unused)
    (hleave : x.state = .embryo ∨ frame.child = none) (hnew : x.state = .embryo → frame.child = some np)
    (hready : ∀ m, frame = .ready m → x.parent = some p) (hproc : k'.proc = Function.update k.proc np x)
    (hframe : k'.frame = Function.update k.frame p frame)
    (hx : x.state = .unused ∨ x.state = .embryo ∨ x.state = .runnable ∧ x.parent ≠ none)
    (hparent : x.parent = (k.proc np).parent ∨ x.parent = none ∨ ∃ p, x.parent = some p ∧ Live k p) : Family k' := by
  have hnp : ¬ Live k np := by
    intro hl
    rcases hold with hc | ⟨-, hu⟩
    · exact hl.ne.2.1 (h.child p np hc).1
    · exact hl.ne.1 hu
  -- no other process has the child
  have hother : ∀ {r m}, r ≠ p → (k.frame r).child = some m → m ≠ np := by
    rintro r m hr hm rfl
    rcases hold with hc | ⟨-, hu⟩
    · exact hr (h.child_inj r p m hm hc)
    · rw [(h.child r m hm).1] at hu
      cases hu
  refine h.entry (p := p) hnp hproc hx hparent (fun r m hm => ?_) (fun r m hm => ?_) (fun r m hm hmn => ?_) fun hx => ?_
  · rw [hframe] at hm
    rcases eq_or_ne r p with rfl | hr
    · rw [Function.update_self] at hm
      rcases hleave with hx | hc
      · exact .inr ⟨Option.some.inj (hm.symm.trans (hnew hx)), rfl, hx, hp⟩
      · rw [hc] at hm
        cases hm
    · rw [Function.update_of_ne hr] at hm
      exact .inl ⟨hm, hother hr hm⟩
  · rw [hframe] at hm
    rcases eq_or_ne r p with rfl | hr
    · rw [Function.update_self] at hm
      have hmn : m = np := by
        rcases hleave with hx | hc
        · have hc := hnew hx
          rw [hm] at hc
          exact Option.some.inj hc
        · rw [hm] at hc
          cases hc
      exact .inr ⟨hmn, hready m hm⟩
    · rw [Function.update_of_ne hr] at hm
      exact .inl ⟨hm, hother hr (by rw [hm]; rfl)⟩
  · have hr : r ≠ p := by
      rintro rfl
      rcases hold with hc | ⟨hc, -⟩ <;> rw [hm] at hc
      · exact hmn (Option.some.inj hc)
      · cases hc
    rwa [hframe, Function.update_of_ne hr]
  · rw [hframe]
    exact ⟨p, by rw [Function.update_self]; exact hnew hx⟩

theorem Family.reap (h : Family k) (hp : (k.frame p).child = none)
    (hq : (k.proc q).parent = some p ∧ (k.proc q).state = .zombie) : Family (reaped k p q) := by
  have hleft : ∀ {r m}, ((reaped k p q).frame r).child = some m → (k.frame r).child = some m ∧ m ≠ q := by
    intro r m hm
    have hm' : (k.frame r).child = some m := by
      rcases frame_of_goto (f := (reaped k p q).frame r) rfl with ⟨-, hf⟩ | ⟨-, hf⟩
      · rw [← hf] at hm
        cases hm
      · exact (congrArg Frame.child hf).trans hm
    refine ⟨hm', ?_⟩
    rintro rfl
    rw [(h.child r m hm').1] at hq
    cases hq.2
  refine h.entry (p := p) (show ¬ Live k q from fun hl => hl.ne.2.2 hq.2) rfl (.inl rfl) (.inr (.inl rfl))
    (fun r m hm => .inl (hleft hm)) (fun r m hm => .inl ⟨?_, (hleft (by rw [hm]; rfl)).2⟩) (fun r m hm hmq => ?_) nofun
  · rcases frame_of_goto hm with ⟨-, hf⟩ | ⟨-, hf⟩
    · cases hf
    · exact hf
  · have hr : r ≠ p := by
      rintro rfl
      rw [hp] at hm
      cases hm
    show (Function.update k.frame p .user r).child = some m
    rwa [Function.update_of_ne hr]

/-! The parent of `p` and init are the ones whom `exit` has to wake up. -/

section Exit

theorem exit_parent : ((exit k p).proc q).parent =
    if (k.proc q).parent = some p then some initproc else (k.proc q).parent := by
  rcases eq_or_ne q p with rfl | hq
  · rw [exit_proc_self]
    simp [abandon_parent]
  · rw [exit_proc_of_ne hq]
    simp [abandon_parent]

/-- Others only wake up in `exit`. -/
theorem exit_state (hq : q ≠ p) : ((exit k p).proc q).state = (k.proc q).state ∨
    (k.proc q).state = .sleeping ∧ ((exit k p).proc q).state = .runnable := by
  rw [exit_proc_of_ne hq]
  rcases abandon_state (wakeup1 k.proc ((k.proc p).parent.map .proc)) p q with h | ⟨h, -, h'⟩
  · rw [h]
    exact (wakeup1_state ..).imp_right fun h => ⟨h.1, h.2.2⟩
  · refine .inr ⟨?_, h'⟩
    rcases wakeup1_state k.proc ((k.proc p).parent.map .proc) q with hs | ⟨-, -, hs⟩
    · exact hs.symm.trans h
    · rw [hs] at h
      cases h

theorem exit_zombie : ((exit k p).proc p).state = .zombie := by rw [exit_proc_self]

theorem wakeup1_not_sleeping {proc : Fin nproc → Proc} {chan : Option Chan} (h : (proc q).chan = chan) :
    (wakeup1 proc chan q).state ≠ .sleeping := by
  unfold wakeup1
  split_ifs with hs
  · exact nofun
  · exact fun hsl => hs ⟨hsl, h⟩

theorem abandon_not_sleeping {proc : Fin nproc → Proc} (h : (proc q).state ≠ .sleeping) :
    (abandon proc p q).state ≠ .sleeping := by
  rcases abandon_state proc p q with hs | ⟨hs, -⟩
  · rwa [hs]
  · exact absurd hs h

/-- The parent is woken up. -/
theorem not_waits_parent (hr : (k.proc p).parent = some r) (hne : r ≠ p) : ¬ Waits (exit k p) r := by
  rintro ⟨hs, hc⟩
  rw [exit_proc_of_ne hne] at hs hc
  rw [abandon_chan, wakeup1_chan] at hc
  exact abandon_not_sleeping (wakeup1_not_sleeping (by rw [hc, hr]; rfl)) hs

/-- With a zombie among the children, init is woken up. -/
theorem not_waits_init (hq : (k.proc q).parent = some p) (hz : (k.proc q).state = .zombie) (hne : initproc ≠ p) :
    ¬ Waits (exit k p) initproc := by
  rintro ⟨hs, hc⟩
  rw [exit_proc_of_ne hne] at hs hc
  rw [abandon_chan] at hc
  have hzombie : ∃ q, (wakeup1 k.proc ((k.proc p).parent.map .proc) q).parent = some p ∧
      (wakeup1 k.proc ((k.proc p).parent.map .proc) q).state = .zombie := by
    refine ⟨q, wakeup1_parent.trans hq, ?_⟩
    rcases wakeup1_state k.proc ((k.proc p).parent.map .proc) q with h | ⟨h, -⟩
    · exact h.trans hz
    · rw [hz] at h
      cases h
  unfold abandon at hs
  rw [if_pos hzombie] at hs
  exact wakeup1_not_sleeping (by rw [adopted_chan, hc]) hs

end Exit

theorem Family.exit (h : Family k) (hp : (k.proc p).state = .running) (hf : k.frame p = .user) (hinit : p ≠ initproc) :
    Family (exit k p) := by
  have hlive : ∀ {r}, r ≠ p → Live k r → Live (ProcTable.exit k p) r := by
    intro r hr hl
    unfold Live at *
    rcases exit_state (k := k) hr with hs | ⟨-, hs⟩
    · rwa [hs]
    · exact .inr (.inl hs)
  have hkeep : ∀ {q st}, st = .unused ∨ st = .embryo → (((ProcTable.exit k p).proc q).state = st ↔
      (k.proc q).state = st) := by
    intro q st hst
    rcases eq_or_ne q p with rfl | hq
    · rw [exit_zombie, hp]
      rcases hst with rfl | rfl <;> simp
    · rcases exit_state (k := k) hq with hs | ⟨hs, hs'⟩
      · rw [hs]
      · rw [hs, hs']
        rcases hst with rfl | rfl <;> simp
  have hframe : ∀ {r m}, (k.frame r).child = some m → r ≠ p := by
    rintro r m hm rfl
    rw [hf] at hm
    cases hm
  refine ⟨fun r m hm => ?_, h.child_inj, fun q hq => h.busy q ((hkeep (.inr rfl)).mp hq), fun r m hm => ?_,
    fun q r hr => ?_, fun q hu he hi hn => ?_, hlive hinit.symm h.init, ?_, fun q hq => ?_, fun r q hr hq hz => ?_⟩
  · obtain ⟨hemb, hr⟩ := h.child r m hm
    refine ⟨(hkeep (.inr rfl)).mpr hemb, ?_⟩
    rcases exit_state (k := k) (hframe hm) with hs | ⟨-, hs⟩
    · rwa [hs]
    · exact .inl hs
  · have hm' := h.ready r m hm
    have hrp : r ≠ p := hframe (by rw [show k.frame r = .ready m from hm]; rfl)
    rw [exit_parent, if_neg (by rw [hm']; simpa using hrp)]
    exact hm'
  · rw [exit_parent] at hr
    split_ifs at hr with hqp
    · cases hr
      exact hlive hinit.symm h.init
    · refine hlive ?_ (h.live q r hr)
      rintro rfl
      exact hqp hr
  · rw [Ne, hkeep (.inl rfl)] at hu
    rw [Ne, hkeep (.inr rfl)] at he
    rw [exit_parent] at hn
    split_ifs at hn
    exact h.orphan q hu he hi hn
  · rw [exit_parent, if_neg (by rw [h.root]; simp)]
    exact h.root
  · rw [exit_parent] at hq
    split_ifs at hq with hqp
    · rw [← Option.some.inj hq, h.root] at hqp
      cases hqp
    · exact h.irrefl q hq
  · have hrp : r ≠ p := by
      rintro rfl
      rw [Waits, exit_zombie] at hr
      cases hr.1
    -- a new zombie, an adopted one, or an old one
    rcases eq_or_ne q p with rfl | hqp
    · rw [exit_parent, if_neg (h.irrefl q)] at hq
      exact not_waits_parent hq hrp hr
    · have hzombie : (k.proc q).state = .zombie := by
        rcases exit_state (k := k) hqp with hs | ⟨-, hs⟩
        · exact hs.symm.trans hz
        · rw [hz] at hs
          cases hs
      rw [exit_parent] at hq
      split_ifs at hq with hchild
      · cases hq
        exact not_waits_init hchild hzombie hrp hr
      · refine h.waits r q ?_ hq hzombie
        obtain ⟨hs, hc⟩ := hr
        rw [exit_proc_of_ne hrp, abandon_chan, wakeup1_chan] at hc
        rcases exit_state (k := k) hrp with hs' | ⟨-, hs'⟩
        · exact ⟨hs'.symm.trans hs, hc⟩
        · rw [hs] at hs'
          cases hs'

theorem Family.change {op : Op} (h : Family k) (hc : Change k op k') : Family k' := by
  cases hc with
  | calm hc => exact h.calm hc
  | @alloc p np hp hf hnp =>
    have hun := findUnused_eq hnp
    rw [allocproc_of_some hnp]
    exact h.goto np _ (.kalloc np) hp (.inr ⟨by rw [hf]; rfl, hun⟩) (.inl rfl) (fun _ => rfl) nofun rfl rfl
      (.inr (.inl rfl)) (.inl rfl)
  | @kalloc p np ok hp hf =>
    have hemb := (h.child p np (by rw [hf]; rfl)).1
    cases ok with
    | true =>
      exact h.goto np { k.proc np with kstack := some k.pages } (.copy np) hp (.inl (by rw [hf]; rfl))
        (.inl hemb) (fun _ => rfl) nofun rfl rfl (.inr (.inl hemb)) (.inl rfl)
    | false =>
      exact h.goto np { k.proc np with kstack := none, state := .unused } .user hp (.inl (by rw [hf]; rfl)) (.inr rfl)
        nofun nofun rfl rfl (.inl rfl) (.inl rfl)
  | @copy p np ok hp hf =>
    have hemb := (h.child p np (by rw [hf]; rfl)).1
    cases ok with
    | true =>
      exact h.goto np { k.proc np with pgdir := some k.pages, parent := some p } (.ready np) hp (.inl (by rw [hf]; rfl))
        (.inl hemb) (fun _ => rfl) (fun _ _ => rfl) rfl rfl (.inr (.inl hemb)) (.inr (.inr ⟨p, rfl, .inr (.inr hp)⟩))
    | false =>
      exact h.goto np { k.proc np with pgdir := none, kstack := none, state := .unused } .user hp
        (.inl (by rw [hf]; rfl)) (.inr rfl) nofun nofun rfl rfl (.inl rfl) (.inl rfl)
  | @ready p np hp hf =>
    have hparent : (k.proc np).parent ≠ none := by
      rw [h.ready p np hf]
      exact nofun
    exact h.goto np { k.proc np with state := .runnable } .user hp (.inl (by rw [hf]; rfl)) (.inr rfl) nofun nofun rfl
      rfl (.inr (.inr ⟨rfl, hparent⟩)) (.inl rfl)
  | exit hp hf hinit => exact h.exit hp hf hinit
  | reap hc hp hq => exact (h.calm hc).reap hp hq

end OperatingSystems.ProcTable.Exits
