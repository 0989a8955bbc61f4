import OperatingSystems.ProcTable.Steps

/-! # What kill finds

`kill` and `getprocstate` search all entries for a pid, also the unused ones. `wait` clears the pid and
`killed` of the entry that it frees, a `fork` that fails does not. Beside the kernel, `Past` says what was left
in the unused entries; that decides both when the search finds a process that does not exist (`LeftOver`) and
when a new process is killed from the start (`Past.old`). -/

namespace OperatingSystems.ProcTable.Pids

open OperatingSystems.Lib.Transition OperatingSystems.ProcTable

/-- What has happened to the entries: whether a `fork` that had the pid left the entry, with `none` for boot and
`wait`; whether `kill` has found the entry since then, or since `wait` or boot before that; whether this was
before its last pid was given to it; and whether `kill` was called with that pid since. -/
structure Past where
  left : Fin nproc → Option (BitVec 32)
  struck : Fin nproc → Bool
  old : Fin nproc → Bool
  called : Fin nproc → Bool

/-- At boot. -/
def Past.start : Past := ⟨fun _ => none, fun _ => false, fun _ => false, fun _ => false⟩

/-- The pid is given to the entry. -/
def Past.alloc (h : Past) (np : Fin nproc) : Past :=
  { h with old := Function.update h.old np (h.struck np), called := Function.update h.called np false }

/-- The fork with that child fails. -/
def Past.fail (h : Past) (np : Fin nproc) (pid : BitVec 32) : Past :=
  { h with left := Function.update h.left np (some pid) }

/-- `wait` by `p`. -/
def Past.wait (h : Past) (k : Kernel) (p : Fin nproc) : Past :=
  match findZombie k p with
  | none => h
  | some q => { h with left := Function.update h.left q none, struck := Function.update h.struck q false }

/-- `kill(pid)`. -/
def Past.kill (h : Past) (k : Kernel) (pid : BitVec 32) : Past where
  left := h.left
  struck q := h.struck q || findPid k pid == some q
  old := h.old
  called q := h.called q || (k.proc q).pid == pid

/-- What a step adds. -/
def note (k : Kernel) (op : Op) (h : Past) : Past :=
  match op with
  | .fork _ => match findUnused k with | none => h | some np => h.alloc np
  | .forkKalloc p false => match k.frame p with | .kalloc np => h.fail np (k.proc np).pid | _ => h
  | .forkCopy p false => match k.frame p with | .copy np => h.fail np (k.proc np).pid | _ => h
  | .wait p => h.wait k p
  | .dispatch p => if k.frame p = .waiting then h.wait k p else h
  | .kill _ pid => h.kill k pid
  | _ => h

/-- The process table, with the past. -/
def runs : System (Kernel × Past) Op := system.beside Past.start note

/-! ### The invariant -/

/-- The process of the entry exists. -/
def Exists (k : Kernel) (pid : BitVec 32) : Prop := ∃ q, (k.proc q).state ≠ .unused ∧ (k.proc q).pid = pid

/-- An unused entry was left with the pid: by a fork that failed, or with pid 0 by boot and `wait`. -/
def LeftOver (x : Kernel × Past) (pid : BitVec 32) : Prop :=
  ∃ q, (x.1.proc q).state = .unused ∧ (x.2.left q).getD 0 = pid

/-- **What is left in an entry** that has no process yet. -/
structure Inv (x : Kernel × Past) : Prop where
  embryo : ∀ p np, (x.1.frame p).child = some np → (x.1.proc np).state = .embryo
  child_inj : ∀ p q np, (x.1.frame p).child = some np → (x.1.frame q).child = some np → p = q
  pid : ∀ q, (x.1.proc q).state = .unused → (x.1.proc q).pid = (x.2.left q).getD 0
  struck : ∀ q, (x.1.proc q).state = .unused ∨ (x.1.proc q).state = .embryo → (x.1.proc q).killed = x.2.struck q
  old : ∀ q, (x.1.proc q).state = .embryo → x.2.old q = true → x.2.struck q = true
  called : ∀ q, (x.1.proc q).state = .embryo → x.2.struck q = true → x.2.old q = true ∨ x.2.called q = true

/-- The entry is taken by a process that has left `fork`. -/
def Taken (k : Kernel) (q : Fin nproc) : Prop := (k.proc q).state ≠ .unused ∧ (k.proc q).state ≠ .embryo

/-- Entries without a process are as they were. -/
structure Calm (k k' : Kernel) : Prop where
  child : ∀ p, (k'.frame p).child = (k.frame p).child
  entry : ∀ q, Taken k q ∧ Taken k' q ∨
    (k'.proc q).state = (k.proc q).state ∧ (k'.proc q).pid = (k.proc q).pid ∧ (k'.proc q).killed = (k.proc q).killed

variable {k k' : Kernel} {h : Past} {p q np : Fin nproc} {pid : BitVec 32}

theorem Inv.calm (hi : Inv (k, h)) (hc : Calm k k') : Inv (k', h) where
  embryo p np hp := by
    have hnp := hi.embryo p np ((hc.child p).symm.trans hp)
    rcases hc.entry np with ⟨ht, -⟩ | ⟨hs, -⟩
    · exact absurd hnp ht.2
    · exact hs.trans hnp
  child_inj p q np hp hq := hi.child_inj p q np ((hc.child p).symm.trans hp) ((hc.child q).symm.trans hq)
  pid q hq := by
    rcases hc.entry q with ⟨-, ht⟩ | ⟨hs, hpid, -⟩
    · exact absurd hq ht.1
    · exact hpid.trans (hi.pid q (hs.symm.trans hq))
  struck q hq := by
    rcases hc.entry q with ⟨-, ht⟩ | ⟨hs, -, hk⟩
    · exact absurd hq (not_or.mpr ht)
    · exact hk.trans (hi.struck q (by rwa [← hs]))
  old q hq := by
    rcases hc.entry q with ⟨-, ht⟩ | ⟨hs, -⟩
    · exact absurd hq ht.2
    · exact hi.old q (hs.symm.trans hq)
  called q hq := by
    rcases hc.entry q with ⟨-, ht⟩ | ⟨hs, -⟩
    · exact absurd hq ht.2
    · exact hi.called q (hs.symm.trans hq)

/-- One entry with a process changes, and it keeps one. -/
theorem Calm.update {x : Proc} (hq : Taken k q) (hx : x.state ≠ .unused ∧ x.state ≠ .embryo)
    (hproc : k'.proc = Function.update k.proc q x) (hchild : ∀ p, (k'.frame p).child = (k.frame p).child) :
    Calm k k' where
  child := hchild
  entry r := by
    rcases eq_or_ne r q with rfl | hr
    · exact .inl ⟨hq, by unfold Taken; rw [hproc, Function.update_self]; exact hx⟩
    · rw [hproc, Function.update_of_ne hr]
      exact .inr ⟨rfl, rfl, rfl⟩

/-- Nobody gets a child or loses it. -/
theorem child_goto {frame : Frame} (proc : Fin nproc → Proc) (h : frame.child = (k.frame p).child) :
    ∀ q, ((k.goto p frame proc).frame q).child = (k.frame q).child := fun q => by
  show (Function.update k.frame p frame q).child = _
  rcases eq_or_ne q p with rfl | hq
  · rw [Function.update_self, h]
  · rw [Function.update_of_ne hq]

/-! ### The steps -/

theorem Inv.fork (hi : Inv (k, h)) : Inv (allocproc k p, note k (.fork p) h) := by
  unfold allocproc note
  dsimp only
  cases hnp : findUnused k with
  | none => exact hi
  | some np =>
    have hun := findUnused_eq hnp
    have hne : ∀ {q m}, (k.frame q).child = some m → m ≠ np := by
      rintro q m hm rfl
      rw [hi.embryo q m hm] at hun
      cases hun
    refine ⟨fun q m hm => ?_, fun q r m hq hr => ?_, fun q hq => ?_, fun q hq => ?_, fun q hq hold => ?_,
      fun q hq hstruck => ?_⟩
    · change (Function.update k.frame p (.kalloc np) q).child = some m at hm
      show (Function.update k.proc np _ m).state = .embryo
      rcases eq_or_ne q p with rfl | hqp
      · rw [Function.update_self] at hm
        cases hm
        rw [Function.update_self]
      · rw [Function.update_of_ne hqp] at hm
        rw [Function.update_of_ne (hne hm)]
        exact hi.embryo q m hm
    · change (Function.update k.frame p (.kalloc np) q).child = some m at hq
      change (Function.update k.frame p (.kalloc np) r).child = some m at hr
      rcases eq_or_ne q p with rfl | hqp <;> rcases eq_or_ne r q with rfl | hrq
      · rfl
      · rw [Function.update_self] at hq
        rw [Function.update_of_ne hrq] at hr
        cases hq
        exact absurd rfl (hne hr)
      · rfl
      · rw [Function.update_of_ne hqp] at hq
        rcases eq_or_ne r p with rfl | hrp
        · rw [Function.update_self] at hr
          cases hr
          exact absurd rfl (hne hq)
        · rw [Function.update_of_ne hrp] at hr
          exact hi.child_inj q r m hq hr
    · change (Function.update k.proc np _ q).state = _ at hq
      show (Function.update k.proc np _ q).pid = _
      rcases eq_or_ne q np with rfl | hqn
      · rw [Function.update_self] at hq
        cases hq
      · rw [Function.update_of_ne hqn] at hq ⊢
        exact hi.pid q hq
    · change (Function.update k.proc np _ q).state = _ ∨ (Function.update k.proc np _ q).state = _ at hq
      show (Function.update k.proc np _ q).killed = h.struck q
      rcases eq_or_ne q np with rfl | hqn
      · rw [Function.update_self]
        exact hi.struck q (.inl hun)
      · rw [Function.update_of_ne hqn] at hq ⊢
        exact hi.struck q hq
    · change (Function.update k.proc np _ q).state = _ at hq
      change Function.update h.old np (h.struck np) q = true at hold
      show h.struck q = true
      rcases eq_or_ne q np with rfl | hqn
      · rwa [Function.update_self] at hold
      · rw [Function.update_of_ne hqn] at hq hold
        exact hi.old q hq hold
    · change (Function.update k.proc np _ q).state = _ at hq
      change h.struck q = true at hstruck
      show Function.update h.old np (h.struck np) q = true ∨ Function.update h.called np false q = true
      rcases eq_or_ne q np with rfl | hqn
      · rw [Function.update_self]
        exact .inl hstruck
      · rw [Function.update_of_ne hqn] at hq
        rw [Function.update_of_ne hqn, Function.update_of_ne hqn]
        exact hi.called q hq hstruck

/-- A process that is not in the entry it leaves, or in `fork` no more, has no child. -/
theorem child_goto_user {q : Fin nproc} {m : Fin nproc} {proc : Fin nproc → Proc}
    (h : ((k.goto p .user proc).frame q).child = some m) : q ≠ p ∧ (k.frame q).child = some m := by
  change (Function.update k.frame p .user q).child = some m at h
  rcases eq_or_ne q p with rfl | hq
  · rw [Function.update_self] at h
    cases h
  · rw [Function.update_of_ne hq] at h
    exact ⟨hq, h⟩

/-- `fork` goes on with its child, which stays an `EMBRYO`. -/
theorem Inv.build (hi : Inv (k, h)) (hnp : (k.frame p).child = some np) {x : Proc} (hx : x.state = .embryo)
    (hpid : x.pid = (k.proc np).pid) (hkilled : x.killed = (k.proc np).killed)
    (hproc : k'.proc = Function.update k.proc np x) (hchild : ∀ q, (k'.frame q).child = (k.frame q).child) :
    Inv (k', h) := by
  refine hi.calm ⟨hchild, fun q => .inr ?_⟩
  rw [hproc]
  rcases eq_or_ne q np with rfl | hq
  · rw [Function.update_self]
    exact ⟨hx.trans (hi.embryo p q hnp).symm, hpid, hkilled⟩
  · rw [Function.update_of_ne hq]
    exact ⟨rfl, rfl, rfl⟩

/-- An entry that is nobody's child any more changes hands. -/
theorem Inv.entry (hi : Inv (k, h)) (np : Fin nproc) {x : Proc} {h' : Past} (hx : x.state ≠ .embryo)
    (hpid : x.state = .unused → x.pid = (h'.left np).getD 0) (hkilled : x.state = .unused → x.killed = h'.struck np)
    (hother : ∀ q, q ≠ np → h'.left q = h.left q ∧ h'.struck q = h.struck q) (hold : h'.old = h.old)
    (hcalled : h'.called = h.called) (hproc : k'.proc = Function.update k.proc np x)
    (hframe : ∀ q m, (k'.frame q).child = some m → m ≠ np ∧ (k.frame q).child = some m) : Inv (k', h') := by
  have hself : k'.proc np = x := by rw [hproc, Function.update_self]
  have hne : ∀ {q}, q ≠ np → k'.proc q = k.proc q := fun hq => by rw [hproc, Function.update_of_ne hq]
  have hemb : ∀ {q}, (k'.proc q).state = .embryo → q ≠ np ∧ (k.proc q).state = .embryo := by
    intro q hq
    rcases eq_or_ne q np with rfl | hqn
    · exact absurd (hself ▸ hq) hx
    · exact ⟨hqn, hne hqn ▸ hq⟩
  refine ⟨fun q m hm => ?_, fun q r m hq hr => ?_, fun q hq => ?_, fun q hq => ?_, fun q hq hw => ?_, fun q hq hw => ?_⟩
  · obtain ⟨hmn, hm⟩ := hframe q m hm
    exact hne hmn ▸ hi.embryo q m hm
  · exact hi.child_inj q r m (hframe q m hq).2 (hframe r m hr).2
  · change (k'.proc q).state = _ at hq
    show (k'.proc q).pid = (h'.left q).getD 0
    rcases eq_or_ne q np with rfl | hqn
    · rw [hself] at hq ⊢
      exact hpid hq
    · rw [hne hqn] at hq ⊢
      rw [(hother q hqn).1]
      exact hi.pid q hq
  · change (k'.proc q).state = _ ∨ (k'.proc q).state = _ at hq
    show (k'.proc q).killed = h'.struck q
    rcases eq_or_ne q np with rfl | hqn
    · rw [hself] at hq ⊢
      exact hkilled (hq.resolve_right hx)
    · rw [hne hqn] at hq ⊢
      rw [(hother q hqn).2]
      exact hi.struck q hq
  · obtain ⟨hqn, hq⟩ := hemb hq
    exact (hother q hqn).2.trans (hi.old q hq (hold ▸ hw))
  · obtain ⟨hqn, hq⟩ := hemb hq
    show h'.old q = true ∨ h'.called q = true
    rw [hold, hcalled]
    exact hi.called q hq ((hother q hqn).2.symm.trans hw)

/-- After `fork`, the child is nobody's child any more. -/
theorem Inv.child_left (hi : Inv (k, h)) (hnp : (k.frame p).child = some np) (proc : Fin nproc → Proc) (q m : Fin nproc)
    (hm : ((k.goto p .user proc).frame q).child = some m) : m ≠ np ∧ (k.frame q).child = some m := by
  obtain ⟨hq, hm⟩ := child_goto_user hm
  refine ⟨?_, hm⟩
  rintro rfl
  exact hq (hi.child_inj q p m hm hnp)

/-- `fork` fails. -/
theorem Inv.fail (hi : Inv (k, h)) (hnp : (k.frame p).child = some np) {x : Proc} (hx : x.state = .unused)
    (hpid : x.pid = (k.proc np).pid) (hkilled : x.killed = (k.proc np).killed)
    (hproc : k'.proc = Function.update k.proc np x) (hframe : k'.frame = Function.update k.frame p .user) :
    Inv (k', h.fail np (k.proc np).pid) := by
  refine hi.entry np (by rw [hx]; simp) (fun _ => ?_) (fun _ => ?_) (fun q hq => ⟨?_, rfl⟩) rfl rfl hproc
    fun q m hm => hi.child_left hnp k.proc q m (by rwa [hframe] at hm)
  · show x.pid = (Function.update h.left np (some (k.proc np).pid) np).getD 0
    rw [hpid, Function.update_self]
    rfl
  · exact hkilled.trans (hi.struck np (.inr (hi.embryo p np hnp)))
  · exact Function.update_of_ne hq _ _

theorem Inv.ready (hi : Inv (k, h)) (hnp : (k.frame p).child = some np) : Inv (forkReady k p np, h) :=
  hi.entry np (x := { k.proc np with state := .runnable }) (by simp) nofun nofun (fun _ _ => ⟨rfl, rfl⟩) rfl rfl rfl
    (hi.child_left hnp _)

theorem Inv.wait (hi : Inv (k, h)) (hp : Taken k p) (hf : (k.frame p).child = none) :
    Inv (wait k p, h.wait k p) := by
  unfold ProcTable.wait Past.wait
  cases hq : findZombie k p with
  | some q =>
    have hz := (findZombie_eq hq).2
    let reaped := { k.proc q with kstack := none, state := .unused, pid := 0, parent := none, killed := false }
    refine hi.entry q (x := reaped) (by simp [reaped]) (fun _ => ?_) (fun _ => ?_) (fun r hr => ⟨?_, ?_⟩) rfl rfl
      rfl (fun r m hm => ?_)
    · show (0 : BitVec 32) = (Function.update h.left q none q).getD 0
      rw [Function.update_self]
      rfl
    · show false = Function.update h.struck q false q
      rw [Function.update_self]
    · exact Function.update_of_ne hr _ _
    · exact Function.update_of_ne hr _ _
    · obtain ⟨-, hm⟩ := child_goto_user hm
      refine ⟨?_, hm⟩
      rintro rfl
      rw [hi.embryo r m hm] at hz
      cases hz
  | none =>
    dsimp only
    split_ifs
    · exact hi.calm ⟨child_goto _ hf.symm, fun r => .inr ⟨rfl, rfl, rfl⟩⟩
    · exact hi.calm (.update (x := { k.proc p with state := .sleeping, chan := some (.proc p) }) hp ⟨nofun, nofun⟩ rfl
        (child_goto _ hf.symm))

theorem Inv.kill (hi : Inv (k, h)) : Inv ((ProcTable.kill k pid).getD k, h.kill k pid) := by
  have hkeep : ∀ {q st}, st = .unused ∨ st = .embryo → ((((ProcTable.kill k pid).getD k).proc q).state = st ↔
      (k.proc q).state = st) := by
    intro q st hst
    rcases kill_state k pid q with hs | ⟨hs, hs'⟩
    · rw [hs]
    · rw [hs, hs']
      rcases hst with rfl | rfl <;> simp
  have hframe := (kill_rest k pid).1
  refine ⟨fun q m hm => ?_, fun q r m hq hr => ?_, fun q hq => ?_, fun q hq => ?_, fun q hq hold => ?_,
    fun q hq hstruck => ?_⟩
  · exact (hkeep (.inr rfl)).mpr (hi.embryo q m (by rwa [hframe] at hm))
  · exact hi.child_inj q r m (by rwa [hframe] at hq) (by rwa [hframe] at hr)
  · exact (kill_fields k pid q).1.trans (hi.pid q ((hkeep (.inl rfl)).mp hq))
  · show (((ProcTable.kill k pid).getD k).proc q).killed = (h.struck q || findPid k pid == some q)
    rw [kill_killed]
    have hq' := hq.imp (hkeep (.inl rfl)).mp (hkeep (.inr rfl)).mp
    rw [show (k.proc q).killed = h.struck q from hi.struck q hq']
  · show (h.struck q || findPid k pid == some q) = true
    rw [Bool.or_eq_true]
    exact .inl (hi.old q ((hkeep (.inr rfl)).mp hq) hold)
  · change (h.struck q || findPid k pid == some q) = true at hstruck
    show h.old q = true ∨ (h.called q || (k.proc q).pid == pid) = true
    rw [Bool.or_eq_true, beq_iff_eq]
    rcases Bool.or_eq_true _ _ ▸ hstruck with hstruck | hfound
    · exact (hi.called q ((hkeep (.inr rfl)).mp hq) hstruck).imp_right .inl
    · exact .inr (.inr (findPid_eq (by simpa using hfound)))

/-- A wakeup, also that of a parent, leaves the entries without a process. -/
theorem entry_of_state {x y : Proc} (hpid : y.pid = x.pid) (hkilled : y.killed = x.killed)
    (hs : y.state = x.state ∨ x.state = .sleeping ∧ y.state = .runnable) :
    (x.state ≠ .unused ∧ x.state ≠ .embryo) ∧ (y.state ≠ .unused ∧ y.state ≠ .embryo) ∨
      y.state = x.state ∧ y.pid = x.pid ∧ y.killed = x.killed := by
  rcases hs with hs | ⟨hs, hs'⟩
  · exact .inr ⟨hs, hpid, hkilled⟩
  · exact .inl (by simp [hs, hs'])

theorem calm_wakeup {chan : Option Chan} : Calm k { k with proc := wakeup1 k.proc chan } where
  child _ := rfl
  entry _ := entry_of_state wakeup1_pid wakeup1_killed ((wakeup1_state ..).imp_right fun h => ⟨h.1, h.2.2⟩)

theorem Taken.calm (ht : Taken k q) (hc : Calm k k') : Taken k' q := by
  rcases hc.entry q with ⟨-, h⟩ | ⟨hs, -⟩
  · exact h
  · unfold Taken
    rwa [hs]

theorem calm_exit (hp : Taken k p) : Calm k (exit k p) where
  child _ := rfl
  entry q := by
    rcases eq_or_ne q p with rfl | hq
    · exact .inl ⟨hp, by unfold Taken; rw [exit_proc_self]; exact ⟨nofun, nofun⟩⟩
    · unfold Taken
      rw [exit_proc_of_ne hq]
      refine entry_of_state (by simp) (by simp) ?_
      rcases abandon_state (wakeup1 k.proc ((k.proc p).parent.map .proc)) p q with h | ⟨h, -, h'⟩
      · rw [h]
        exact (wakeup1_state ..).imp_right fun h => ⟨h.1, h.2.2⟩
      · refine .inr ⟨?_, h'⟩
        rcases wakeup1_state k.proc ((k.proc p).parent.map .proc) q with hs | ⟨-, -, hs⟩
        · exact hs.symm.trans h
        · rw [hs] at h
          cases h

theorem Inv.dispatch (hi : Inv (k, h)) (hp : (k.proc p).state = .runnable) :
    Inv (dispatch k p, note k (.dispatch p) h) := by
  have ht : Taken k p := by simp [Taken, hp]
  have hawake : (k.frame p).child = none → Calm k (awake k p) := fun hf =>
    .update (x := { k.proc p with state := .running, chan := none }) ht ⟨nofun, nofun⟩ rfl (child_goto _ hf.symm)
  unfold ProcTable.dispatch
  split
  · next hf =>
    rw [show note k (.dispatch p) h = h by simp [note, hf]]
    exact hi.calm (hawake (by rw [hf]; rfl))
  · next hf =>
    have hc := hawake (by rw [hf]; rfl)
    have hz : findZombie (awake k p) p = findZombie k p := findZombie_awake (by simp [hp])
    rw [show note k (.dispatch p) h = h.wait (awake k p) p by simp [note, hf, Past.wait, hz]]
    refine (hi.calm hc).wait (ht.calm hc) ?_
    show (Function.update k.frame p .user p).child = none
    rw [Function.update_self]
    rfl
  · next _ hne =>
    rw [show note k (.dispatch p) h = h from if_neg hne]
    exact hi.calm (.update (x := { k.proc p with state := .running }) ht ⟨nofun, nofun⟩ rfl fun _ => rfl)

theorem Inv.step {op : Op} (hi : Inv (k, h)) (hs : Step k op k') : Inv (k', note k op h) := by
  have taken : ∀ {p}, (k.proc p).state = .running → Taken k p := fun hp => by simp [Taken, hp]
  cases hs with
  | fork hp hf => exact hi.fork
  | @forkKalloc p np ok hp hf =>
    have hnp : (k.frame p).child = some np := by rw [hf]; rfl
    cases ok with
    | true =>
      exact hi.build (x := { k.proc np with kstack := some k.pages }) hnp (hi.embryo p np hnp) rfl rfl rfl
        (child_goto k.proc (by rw [hf]; rfl))
    | false =>
      have hnote : note k (.forkKalloc p false) h = h.fail np (k.proc np).pid := by simp [note, hf]
      rw [hnote]
      exact hi.fail (x := { k.proc np with kstack := none, state := .unused }) hnp rfl rfl rfl rfl rfl
  | @forkCopy p np ok hp hf =>
    have hnp : (k.frame p).child = some np := by rw [hf]; rfl
    cases ok with
    | true =>
      exact hi.build (x := { k.proc np with pgdir := some k.pages, parent := some p }) hnp (hi.embryo p np hnp) rfl rfl
        rfl (child_goto k.proc (by rw [hf]; rfl))
    | false =>
      have hnote : note k (.forkCopy p false) h = h.fail np (k.proc np).pid := by simp [note, hf]
      rw [hnote]
      exact hi.fail (x := { k.proc np with pgdir := none, kstack := none, state := .unused }) hnp rfl rfl rfl rfl rfl
  | forkReady hp hf => exact hi.ready (by rw [hf]; rfl)
  | exit hp hf hinit => exact hi.calm (calm_exit (taken hp))
  | wait hp hf => exact hi.wait (taken hp) (by rw [hf]; rfl)
  | @sleep p a hp hf =>
    exact hi.calm (.update (x := { k.proc p with state := .sleeping, chan := some (.addr a) }) (taken hp) ⟨nofun, nofun⟩
      rfl (child_goto _ (by rw [hf]; rfl)))
  | wakeup => exact hi.calm calm_wakeup
  | kill hp hf => exact hi.kill
  | @trap p hp hf =>
    exact hi.calm (.update (x := { k.proc p with state := .running, killed := true }) (taken hp) ⟨nofun, nofun⟩ rfl
      fun _ => rfl)
  | @yield p hp =>
    exact hi.calm (.update (x := { k.proc p with state := .runnable }) (taken hp) ⟨nofun, nofun⟩ rfl fun _ => rfl)
  | dispatch hp => exact hi.dispatch hp

theorem Inv.start : Inv (userinit, Past.start) := by
  refine ⟨nofun, nofun, fun q hq => ?_, fun q _ => ?_, nofun, nofun⟩
  · rcases eq_or_ne q initproc with rfl | hqi
    · rw [show (userinit, Past.start).1.proc initproc = _ from userinit_initproc] at hq
      cases hq
    · exact congrArg Proc.pid (userinit_of_ne hqi)
  · rcases eq_or_ne q initproc with rfl | hqi
    · exact congrArg Proc.killed userinit_initproc
    · exact congrArg Proc.killed (userinit_of_ne hqi)

theorem inv_reachable {x : Kernel × Past} (hx : runs.Reachable x) : Inv x :=
  hx.invariant (fun x hx => by obtain ⟨k, h⟩ := x; obtain ⟨rfl, rfl⟩ := hx; exact Inv.start)
    fun x op y _ ih hs => by
      obtain ⟨k, h⟩ := x
      obtain ⟨k', h'⟩ := y
      obtain ⟨hs, rfl⟩ := hs
      exact ih.step (step_cases hs)

/-- What the search of `kill` and `getprocstate` finds. -/
theorem Inv.found_iff {x : Kernel × Past} (hi : Inv x) (pid : BitVec 32) :
    (findPid x.1 pid).isSome ↔ Exists x.1 pid ∨ LeftOver x pid := by
  rw [findPid_isSome]
  constructor
  · rintro ⟨q, hq⟩
    by_cases hs : (x.1.proc q).state = .unused
    · exact .inr ⟨q, hs, (hi.pid q hs).symm.trans hq⟩
    · exact .inl ⟨q, hs, hq⟩
  · rintro (⟨q, -, hq⟩ | ⟨q, hs, hq⟩)
    · exact ⟨q, hq⟩
    · exact ⟨q, (hi.pid q hs).trans hq⟩

/-- **Pids mean live processes** where nothing was left over. -/
theorem pids_iff {x : Kernel × Past} (hx : runs.Reachable x) :
    (∀ pid n, ((kill x.1 pid).isSome ↔ Exists x.1 pid) ∧ ((getprocstate x.1 pid n).isSome ↔ Exists x.1 pid) ↔
      (LeftOver x pid → Exists x.1 pid)) ∧
    ∀ p np, x.1.frame p = .ready np →
      ((((forkReady x.1 p np).proc np).killed = true → x.2.called np = true) ↔
        (x.2.old np = true → x.2.called np = true)) := by
  have hi := inv_reachable hx
  refine ⟨fun pid n => ?_, fun p np hf => ?_⟩
  · have hfound := hi.found_iff pid
    simp only [kill, getprocstate, Option.isSome_map, hfound, and_self]
    tauto
  · have hemb := hi.embryo p np (by rw [hf]; rfl)
    have hkilled : ((forkReady x.1 p np).proc np).killed = x.2.struck np := by
      show (Function.update x.1.proc np _ np).killed = _
      rw [Function.update_self]
      exact hi.struck np (.inr hemb)
    rw [hkilled]
    exact ⟨fun h hold => h (hi.old np hemb hold), fun h hs => (hi.called np hemb hs).elim h id⟩

/-- The next state. -/
def next (x : Kernel × Past) (op : Op) : Option (Kernel × Past) :=
  (step x.1 op).map fun k => (k, note x.1 op x.2)

theorem runs_step_of_next (x : Kernel × Past) (op : Op) (y : Kernel × Past) (h : next x op = some y) :
    runs.step x op y := by
  obtain ⟨k, hk, rfl⟩ := Option.map_eq_some_iff.mp h
  exact ⟨hk, rfl⟩

/-- Init forks twice, and before its second child is ready the first one calls `kill(3)`. -/
def twoForks : List Op :=
  [.dispatch 0, .fork 0, .forkKalloc 0 true, .forkCopy 0 true, .forkReady 0, .dispatch 1, .fork 0, .forkKalloc 0 true,
    .kill 1 3, .forkCopy 0 true]

/-- Then all pids but 0 mean processes that exist, and the second child is killed because `kill` was called. -/
theorem pids_iff_twoForks : ∃ x ∈ runFun next (userinit, Past.start) twoForks, x.1.frame 0 = .ready 2 ∧
    (∀ pid n, pid ≠ 0 → ((kill x.1 pid).isSome ↔ Exists x.1 pid) ∧
      ((getprocstate x.1 pid n).isSome ↔ Exists x.1 pid)) ∧
    ((forkReady x.1 0 2).proc 2).killed = true ∧ x.2.called 2 = true := by
  have hrun : ∃ x ∈ runFun next (userinit, Past.start) twoForks, x.1.frame 0 = .ready 2 ∧
      (∀ q, x.2.left q = none) ∧ x.2.old 2 = false ∧ ((forkReady x.1 0 2).proc 2).killed = true := by
    decide +kernel
  obtain ⟨x, hx, hframe, hleft, hnew, hkilled⟩ := hrun
  have hstart : runs.Reachable (userinit, Past.start) := .init ⟨rfl, rfl⟩
  have hreach : runs.Reachable x := reachable_runFun runs_step_of_next hstart hx
  obtain ⟨hfound, hchild⟩ := pids_iff hreach
  refine ⟨x, hx, hframe, fun pid n hpid => (hfound pid n).mpr ?_, hkilled, ?_⟩
  · rintro ⟨q, -, hq⟩
    rw [hleft q] at hq
    exact absurd hq.symm hpid
  · refine (hchild 0 2 hframe).mpr (fun hold => ?_) hkilled
    rw [hnew] at hold
    cases hold

/-- The copy of the address space fails. -/
def failedFork : List Op := [.dispatch 0, .fork 0, .forkKalloc 0 true, .forkCopy 0 false]

/-- `kill(2)`, and another fork. -/
def nextFork : List Op := [.kill 0 2, .fork 0, .forkKalloc 0 true, .forkCopy 0 true]

instance (k : Kernel) (pid : BitVec 32) : Decidable (Exists k pid) :=
  inferInstanceAs (Decidable (∃ q, (k.proc q).state ≠ .unused ∧ (k.proc q).pid = pid))

/-- After the fork that failed, `kill(2)` finds a process 2 that does not exist; after the next one, process 3
is killed from the start. -/
theorem pid_left_over : ∃ x y, runs.Run (userinit, Past.start) failedFork x ∧
    (kill x.1 2).isSome ∧ ¬ Exists x.1 2 ∧ runs.Run x nextFork y ∧ y.1.frame 0 = .ready 1 ∧
    ((forkReady y.1 0 1).proc 1).killed = true ∧ y.2.called 1 = false := by
  have hfirst : ((runFun next (userinit, Past.start) failedFork).map fun x =>
      ((kill x.1 2).isSome, decide (Exists x.1 2))) = some (true, false) := by decide +kernel
  have hsecond : (((runFun next (userinit, Past.start) failedFork).bind fun x => runFun next x nextFork).map fun y =>
      (y.1.frame 0, ((forkReady y.1 0 1).proc 1).killed, y.2.called 1)) = some (.ready 1, true, false) := by
    decide +kernel
  obtain ⟨x, hx, hfound⟩ := Option.map_eq_some_iff.mp hfirst
  obtain ⟨y, hy, hchild⟩ := Option.map_eq_some_iff.mp hsecond
  rw [hx, Option.bind_some] at hy
  obtain ⟨hkill, hexists⟩ := Prod.mk.inj hfound
  obtain ⟨hframe, hrest⟩ := Prod.mk.inj hchild
  obtain ⟨hkilled, hcalled⟩ := Prod.mk.inj hrest
  exact ⟨x, y, (System.Run.nil _).append_runFun runs_step_of_next hx, hkill, by simpa using hexists,
    (System.Run.nil _).append_runFun runs_step_of_next hy, hframe, hkilled, hcalled⟩

end OperatingSystems.ProcTable.Pids
