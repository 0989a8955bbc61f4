import OperatingSystems.Stride.Share

/-! # Long runs

`pass` is an `int` that is only ever added to. Beside the kernel we keep an account of each slot: what it was
charged on top of the pass it began with, as a number without bound, in how many quanta, and the least
number of tickets it had at one. While no slot has run too many quanta for its tickets (`Fits`), the passes
are the sums charged, and grow at every dispatch (`pass_order`). Init, with one ticket, can run 131070 of
them, and the next one overflows (`pass_overflows`). -/

namespace OperatingSystems.Stride.Overflow

open OperatingSystems.Lib.Transition OperatingSystems.Stride.Ownership OperatingSystems.Stride.Share
  OperatingSystems.Stride.Table

/-- What the process of a slot was charged, in how many quanta, and its least tickets at one. -/
structure Account where
  paid : ℤ
  quanta : ℕ
  least : ℤ

/-- A new process begins with a pass, and no quantum. -/
def opened (pass : ℤ) : Account := ⟨pass, 0, maxStride⟩

/-- A dispatch charges a quantum. -/
def Account.charge (a : Account) (x : Slot) : Account :=
  ⟨a.paid + x.strides, a.quanta + 1, min a.least x.tickets⟩

/-- The kernel, and the accounts of the slots. -/
structure Books where
  kernel : Kernel
  account : Fin nproc → Account

/-- The accounts after a step: a dispatch charges the current slot, and a new process starts anew. -/
def accountAfter (k : Kernel) (account : Fin nproc → Account) : Op → Fin nproc → Account
  | .dispatch => Function.update account k.curr ((account k.curr).charge (k.pstat k.curr))
  | .forkSlot =>
    match freeSlot k with
    | none => account
    | some s => Function.update account s (opened (k.pstat k.curr).strides)
  | _ => account

/-- The kernel at boot. -/
def boot : Books := ⟨userinit, fun s => opened (userinit.pstat s).pass⟩

/-- The runs of the kernel, with the accounts. -/
def accounts : System Books Op where
  init x := x = boot
  step x op y := step x.kernel op = some y.kernel ∧ y.account = accountAfter x.kernel x.account op

/-- The account that a dispatch charges. -/
def Books.charged (x : Books) : Account := x.account x.kernel.curr

/-- The slot that a dispatch charges. -/
def Books.slot (x : Books) : Slot := x.kernel.pstat x.kernel.curr

/-- **A quantum more fits**: the slot has at most `max_stride` tickets, and the quanta it was charged, this
one included, would fit beside a first pass of `max_stride` with the least number of tickets for each. -/
def Fits (x : Books) (op : Op) : Prop :=
  op = .dispatch → x.slot.tickets ≤ maxStride ∧
    maxStride + (x.charged.quanta + 1) * (maxStride / min x.charged.least x.slot.tickets) < 2 ^ 31

instance (x : Books) (op : Op) : Decidable (Fits x op) := inferInstanceAs (Decidable (_ → _))

/-- Passes compare as the charges do. -/
def Ordered (x : Books) : Prop :=
  ∀ s t, (x.kernel.pstat s).pass ≤ (x.kernel.pstat t).pass ↔ (x.account s).paid ≤ (x.account t).paid

/-- The charge did not overflow, and the pass has grown. -/
def Grows (k k' : Kernel) : Prop := InRange k ∧ (k.pstat k.curr).pass < (k'.pstat k.curr).pass

/-! ### The steps on pstat -/

/-- **What a step does to pstat.** -/
inductive PstatStep (k : Kernel) : Op → Kernel → Prop
  | same {op : Op} {k' : Kernel} (hop : op ≠ .dispatch) (hp : k'.pstat = k.pstat) (hc : k'.curr = k.curr)
      (hfree : op = .forkSlot → freeSlot k = none) : PstatStep k op k'
  | forkSlot {k' : Kernel} {s : Fin nproc} {pid : ℕ} (hs : freeSlot k = some s)
      (hp : k'.pstat = Function.update k.pstat s (childSlot k pid)) (hc : k'.curr = k.curr) :
      PstatStep k .forkSlot k'
  | current {op : Op} {k' : Kernel} {x : Slot} (hop : op ≠ .dispatch) (hop' : op ≠ .forkSlot)
      (hp : k'.pstat = Function.update k.pstat k.curr x) (hc : k'.curr = k.curr)
      (hpass : x.pass = (k.pstat k.curr).pass)
      (htickets : x.tickets = (k.pstat k.curr).tickets ∧ x.strides = (k.pstat k.curr).strides ∨
        1 ≤ x.tickets ∧ x.strides = maxStride / x.tickets) : PstatStep k op k'
  | dispatch {c : Choice} (hc : select k = some c) : PstatStep k .dispatch (switch k c)

theorem pstatStep_of_procStep {k k' : Kernel} {p : Fin nproc} {op : Op} (hs : procStep k p op = some k') :
    PstatStep k op k' := by
  unfold procStep at hs
  split at hs
  case h_1 => cases hs; exact .same nofun rfl rfl nofun
  case h_2 =>
    cases hs
    unfold allocproc
    split <;> exact .same nofun rfl rfl nofun
  case h_3 => cases hs; exact .same nofun rfl rfl nofun
  case h_4 => cases hs; exact .same nofun rfl rfl nofun
  case h_5 =>
    cases hs
    unfold Table.forkSlot
    split
    · next hnone => exact .same nofun rfl rfl fun _ => hnone
    · next s hs => exact .forkSlot hs rfl rfl
  case h_6 =>
    split_ifs at hs
    cases hs
    exact .current nofun nofun rfl rfl rfl (.inl ⟨rfl, rfl⟩)
  case h_7 =>
    cases hs
    unfold wait
    split
    · exact .same nofun rfl rfl nofun
    · split_ifs <;> exact .same nofun rfl rfl nofun
  case h_8 => cases hs; exact .same nofun rfl rfl nofun
  case h_9 =>
    cases hs
    unfold kill
    split <;> exact .same nofun rfl rfl nofun
  case h_10 number _ =>
    cases hs
    unfold settickets
    split_ifs with hn
    · exact .same nofun rfl rfl nofun
    · exact .current nofun nofun rfl rfl rfl (.inr ⟨not_lt.mp hn, rfl⟩)
  case h_11 => cases hs

theorem pstatStep_of_step {k k' : Kernel} {op : Op} (hs : step k op = some k') : PstatStep k op k' := by
  unfold step at hs
  split at hs
  case h_1 => cases hs; exact .same nofun rfl rfl nofun
  case h_2 =>
    obtain ⟨c, hc, rfl⟩ := Option.map_eq_some_iff.mp hs
    exact .dispatch hc
  case h_3 => cases hs
  case h_4 => cases hs
  case h_5 => exact pstatStep_of_procStep hs

/-! ### The strides come from the tickets -/

/-- Every stride is that of the tickets, and a slot that can be charged has some. -/
structure Priced (k : Kernel) : Prop where
  strides : ∀ s, (k.pstat s).strides = maxStride / (k.pstat s).tickets
  tickets : ∀ s, (k.pstat s).inuse ∨ s = k.curr → 1 ≤ (k.pstat s).tickets

theorem priced_userinit : Priced userinit := by
  constructor <;> decide +kernel

theorem Priced.step {k k' : Kernel} {op : Op} (h : Priced k) (hinv : Inv k) (hs : step k op = some k') :
    Priced k' := by
  have hinv' := inv_step hinv hs
  cases pstatStep_of_step hs with
  | same _ hp hc _ =>
    refine ⟨fun s => ?_, fun s hs => ?_⟩
    · rw [hp]; exact h.strides s
    · rw [hp, hc] at hs
      rw [hp]; exact h.tickets s hs
  | @forkSlot _ s pid hs hp hc =>
    have hchild : 1 ≤ (childSlot k pid).tickets := h.tickets k.curr (.inr rfl)
    refine ⟨fun t => ?_, fun t ht => ?_⟩ <;> rw [hp] at * <;> rcases eq_or_ne t s with rfl | hts
    · rw [Function.update_self]; exact h.strides k.curr
    · rw [Function.update_of_ne hts]; exact h.strides t
    · rwa [Function.update_self]
    · rw [Function.update_of_ne hts] at ht ⊢
      exact h.tickets t (by rwa [hc] at ht)
  | @current _ _ x _ _ hp hc _ htickets =>
    have hx : x.strides = maxStride / x.tickets ∧ 1 ≤ x.tickets := by
      rcases htickets with ⟨h1, h2⟩ | ⟨h1, h2⟩
      · rw [h1, h2]; exact ⟨h.strides k.curr, h.tickets k.curr (.inr rfl)⟩
      · exact ⟨h2, h1⟩
    refine ⟨fun t => ?_, fun t ht => ?_⟩ <;> rw [hp] at * <;> rcases eq_or_ne t k.curr with rfl | htc
    · rw [Function.update_self]; exact hx.1
    · rw [Function.update_of_ne htc]; exact h.strides t
    · rw [Function.update_self]; exact hx.2
    · rw [Function.update_of_ne htc] at ht ⊢
      exact h.tickets t (.inl (ht.resolve_right (by rwa [hc])))
  | @dispatch c hc =>
    have hpstat : ∀ s, ((switch k c).pstat s).tickets = (k.pstat s).tickets ∧
        ((switch k c).pstat s).inuse = (k.pstat s).inuse := by
      intro s
      rcases eq_or_ne s k.curr with rfl | hsc
      · simp only [switch, Function.update_self, and_self]
      · simp only [switch, Function.update_of_ne hsc, and_self]
    refine ⟨fun s => ?_, fun s hs => ?_⟩
    · rw [strides_switch, (hpstat s).1]; exact h.strides s
    · rw [(hpstat s).1]
      rw [(hpstat s).2] at hs
      refine h.tickets s (.inl (hs.elim id ?_))
      rintro rfl
      rw [← (hpstat _).2]
      exact (hinv'.curr c.minp rfl).1

/-- A charge is positive for up to `max_stride` tickets. -/
theorem Priced.pos_iff {k : Kernel} (h : Priced k) {s : Fin nproc} (hs : (k.pstat s).inuse ∨ s = k.curr) :
    0 < (k.pstat s).strides ↔ (k.pstat s).tickets ≤ maxStride := by
  have hpos := h.tickets s hs
  rw [h.strides]
  constructor
  · intro hlt
    by_contra! hgt
    rw [Int.ediv_eq_zero_of_lt (by decide) hgt] at hlt
    omega
  · exact fun hle => (Int.le_ediv_iff_mul_le (by omega)).mpr (by omega)

theorem Priced.strides_le {k : Kernel} (h : Priced k) (s : Fin nproc) :
    (k.pstat s).strides ≤ maxStride := by
  rw [h.strides]
  exact Int.ediv_le_self _ (by decide)

/-! ### The order of the passes -/

/-- An account whose sum is bounded by its quanta. -/
structure Account.Bounded (a : Account) : Prop where
  nonneg : 0 ≤ a.paid
  least_pos : 1 ≤ a.least
  paid_le : a.paid ≤ maxStride + a.quanta * (maxStride / a.least)

/-- What holds while every quantum fits. -/
structure Exact (x : Books) : Prop where
  inv : Inv x.kernel
  priced : Priced x.kernel
  pass : ∀ s, (x.kernel.pstat s).pass = (x.account s).paid
  bounded : ∀ s, (x.account s).Bounded

/-- Fewer tickets make a quantum dearer. -/
theorem strides_anti {a b : ℤ} (ha : 1 ≤ a) (h : a ≤ b) : maxStride / b ≤ maxStride / a := by
  refine (Int.le_ediv_iff_mul_le (by omega)).mpr ?_
  calc maxStride / b * a ≤ maxStride / b * b :=
        mul_le_mul_of_nonneg_left h (Int.ediv_nonneg (by decide) (by omega))
    _ ≤ maxStride := Int.ediv_mul_le _ (by omega)

theorem Account.bounded_opened {pass : ℤ} (h0 : 0 ≤ pass) (h : pass ≤ maxStride) : (opened pass).Bounded :=
  ⟨h0, show (1 : ℤ) ≤ maxStride by decide, by simpa [opened] using h⟩

/-- **A charge keeps the bound.** -/
theorem Account.Bounded.charge {a : Account} (h : a.Bounded) {x : Slot} (ht : 1 ≤ x.tickets)
    (hs : x.strides = maxStride / x.tickets) : (a.charge x).Bounded := by
  have hpos : 1 ≤ min a.least x.tickets := le_min h.least_pos ht
  have hmax : (0 : ℤ) ≤ maxStride := by decide
  have hold := strides_anti hpos (min_le_left a.least x.tickets)
  have hnew := strides_anti hpos (min_le_right a.least x.tickets)
  have hquanta : a.quanta * (maxStride / a.least) ≤ a.quanta * (maxStride / min a.least x.tickets) :=
    mul_le_mul_of_nonneg_left hold (Int.natCast_nonneg _)
  refine ⟨add_nonneg h.nonneg ?_, hpos, ?_⟩
  · rw [hs]
    exact Int.ediv_nonneg hmax (by omega)
  · have hpaid := h.paid_le
    simp only [Account.charge, hs]
    push_cast
    linarith

theorem Exact.ordered {x : Books} (h : Exact x) : Ordered x := fun s t => by rw [h.pass, h.pass]

/-- A quantum that fits is charged without an overflow. -/
theorem Exact.inRange {x : Books} (h : Exact x) (hf : Fits x .dispatch) : InRange x.kernel := by
  obtain ⟨-, hlt⟩ := hf rfl
  have hb := (h.bounded x.kernel.curr).charge (h.priced.tickets _ (Or.inr rfl)) (h.priced.strides _)
  have hle := hb.paid_le
  have h0 := hb.nonneg
  simp only [Account.charge] at hle h0
  push_cast at hle
  unfold InRange
  rw [h.pass]
  exact ⟨by omega, lt_of_le_of_lt hle hlt⟩

/-- The pass that a dispatch charges. -/
theorem pass_dispatch {k k' : Kernel} (hs : step k .dispatch = some k') :
    (k'.pstat k.curr).pass = int ((k.pstat k.curr).pass + (k.pstat k.curr).strides) := by
  cases pstatStep_of_step hs with
  | same hop => exact absurd rfl hop
  | current hop => exact absurd rfl hop
  | dispatch => simp only [switch, Function.update_self]

/-- **A quantum that fits** raises the pass. -/
theorem Exact.grows {x y : Books} (h : Exact x) (hf : Fits x .dispatch)
    (hs : accounts.step x .dispatch y) : Grows x.kernel y.kernel := by
  have hr := h.inRange hf
  have hpos := (h.priced.pos_iff (Or.inr rfl)).mpr (hf rfl).1
  refine ⟨hr, ?_⟩
  rw [pass_dispatch hs.1, int_eq hr]
  exact lt_add_of_pos_right _ hpos

theorem Exact.step {x y : Books} {op : Op} (h : Exact x) (hf : Fits x op) (hs : accounts.step x op y) :
    Exact y := by
  obtain ⟨hstep, haccount⟩ := hs
  suffices h' : (∀ s, (y.kernel.pstat s).pass = (y.account s).paid) ∧ ∀ s, (y.account s).Bounded from
    ⟨inv_step h.inv hstep, h.priced.step h.inv hstep, h'.1, h'.2⟩
  rw [haccount]
  generalize hy : y.kernel = k' at hstep
  cases pstatStep_of_step hstep with
  | same hop hp _ hfree =>
    have hsame : accountAfter x.kernel x.account op = x.account := by
      unfold accountAfter
      split
      · exact absurd rfl hop
      · rw [hfree rfl]
      · rfl
    rw [hsame, hp]
    exact ⟨h.pass, h.bounded⟩
  | @forkSlot _ s _ hs hp _ =>
    have hopen : accountAfter x.kernel x.account .forkSlot =
        Function.update x.account s (opened (x.kernel.pstat x.kernel.curr).strides) := by
      rw [accountAfter, hs]
    rw [hopen, hp]
    refine ⟨fun t => ?_, fun t => ?_⟩ <;> rcases eq_or_ne t s with rfl | hts
    · rw [Function.update_self, Function.update_self, childSlot, opened]
    · rw [Function.update_of_ne hts, Function.update_of_ne hts]
      exact h.pass t
    · rw [Function.update_self]
      exact Account.bounded_opened (h.inv.strides _) (h.priced.strides_le _)
    · rw [Function.update_of_ne hts]
      exact h.bounded t
  | current hop hop' hp _ hpass _ =>
    have hsame : accountAfter x.kernel x.account op = x.account := by
      unfold accountAfter
      split
      · exact absurd rfl hop
      · exact absurd rfl hop'
      · rfl
    rw [hsame, hp]
    refine ⟨fun t => ?_, h.bounded⟩
    rcases eq_or_ne t x.kernel.curr with rfl | htc
    · rw [Function.update_self, hpass]
      exact h.pass _
    · rw [Function.update_of_ne htc]
      exact h.pass t
  | @dispatch c hc =>
    have hr := h.inRange hf
    refine ⟨fun t => ?_, fun t => ?_⟩ <;> simp only [accountAfter] <;>
      rcases eq_or_ne t x.kernel.curr with rfl | htc
    · simp only [switch, Function.update_self, int_eq hr, Account.charge]
      rw [h.pass]
    · simp only [switch, Function.update_of_ne htc]
      exact h.pass t
    · rw [Function.update_self]
      exact (h.bounded _).charge (h.priced.tickets _ (Or.inr rfl)) (h.priced.strides _)
    · rw [Function.update_of_ne htc]
      exact h.bounded t

theorem exact_boot : Exact boot := by
  refine ⟨inv_userinit, priced_userinit, fun _ => rfl, fun s => ?_⟩
  have hpass : ∀ s, 0 ≤ (userinit.pstat s).pass ∧ (userinit.pstat s).pass ≤ maxStride := by decide +kernel
  exact Account.bounded_opened (hpass s).1 (hpass s).2

theorem exact_reachable {x : Books} (h : (accounts.only Fits).Reachable x) : Exact x := by
  refine h.invariant (I := Exact) ?_ ?_
  · rintro _ rfl
    exact exact_boot
  · rintro x op y - hx ⟨hf, hs⟩
    exact hx.step hf hs

/-- **The order of the passes.** In every run in which every quantum so far fits, passes compare as the exact
charges do, and the next quantum that fits is charged without an overflow and raises the pass. -/
theorem pass_order {x : Books} (h : (accounts.only Fits).Reachable x) :
    Ordered x ∧ ∀ y, Fits x .dispatch → accounts.step x .dispatch y → Grows x.kernel y.kernel := by
  have hx := exact_reachable h
  exact ⟨hx.ordered, fun y => hx.grows⟩

/-- The step of the accounts. -/
def accountsStep (x : Books) (op : Op) : Option Books :=
  (step x.kernel op).map fun k => ⟨k, accountAfter x.kernel x.account op⟩

theorem accounts_of_accountsStep (x : Books) (op : Op) (y : Books) (h : accountsStep x op = some y) :
    accounts.step x op y := by
  obtain ⟨k, hk, rfl⟩ := Option.map_eq_some_iff.mp h
  exact ⟨hk, rfl⟩

/-- Init takes four tickets and forks, and both run. -/
def fourTickets : List Op :=
  [.dispatch, .settickets 4, .fork, .forkCopy, .forkSlot, .yield, .dispatch, .yield, .dispatch, .yield]

/-- After these three dispatches the passes are ordered, and the next dispatch raises that of the child. -/
theorem pass_order_fourTickets : ∃ x ∈ runFun (onlyFun Fits accountsStep) boot fourTickets, Ordered x ∧
    (x.kernel.pstat 0).pass = 36864 ∧ (x.kernel.pstat 1).pass = 8192 ∧ x.kernel.curr = 1 ∧
    ∃ y, accounts.step x .dispatch y ∧ Grows x.kernel y.kernel := by
  have hrun : ∃ x ∈ runFun (onlyFun Fits accountsStep) boot fourTickets, (x.kernel.pstat 0).pass = 36864 ∧
      (x.kernel.pstat 1).pass = 8192 ∧ x.kernel.curr = 1 ∧ Fits x .dispatch ∧
      (accountsStep x .dispatch).isSome := by
    decide +kernel
  obtain ⟨x, hx, hinit, hchild, hcurr, hfits, hsome⟩ := hrun
  obtain ⟨y, hy⟩ := Option.isSome_iff_exists.mp hsome
  have hstep := accounts_of_accountsStep x _ y hy
  have hreach : (accounts.only Fits).Reachable x :=
    reachable_runFun (only_of_onlyFun accounts_of_accountsStep) (.init rfl) hx
  obtain ⟨hordered, hgrows⟩ := pass_order hreach
  exact ⟨x, hx, hordered, hinit, hchild, hcurr, y, hstep, hgrows y hfits hstep⟩

/-! ### Init alone -/

/-- Init has run `n` quanta and is `RUNNABLE` again, and there is no other process. -/
structure Alone (n : ℕ) (k : Kernel) : Prop where
  proc : k.proc = userinit.proc
  slot : k.pstat 0 = ⟨true, 1, maxStride, maxStride * (n + 1), 1, n⟩
  rest : ∀ s, s ≠ 0 → (k.pstat s).pid = 0
  curr : k.curr = 0
  current : k.current = none

theorem alone_userinit : Alone 0 userinit :=
  ⟨rfl, rfl, fun s hs => by simp [userinit, hs, unusedSlot], rfl, rfl⟩

theorem runnable_userinit : ∀ q, (userinit.proc q).state = .runnable ↔ q = initproc := by
  decide +kernel

namespace Alone

variable {n : ℕ} {k : Kernel}

theorem candidate_iff (h : Alone n k) {p s : Fin nproc} : Candidate k p s ↔ p = initproc ∧ s = 0 := by
  unfold Candidate
  rw [h.proc, runnable_userinit]
  refine and_congr_right ?_
  rintro rfl
  rcases eq_or_ne s 0 with rfl | hs
  · rw [h.slot]
    exact iff_of_true rfl rfl
  · rw [h.rest s hs]
    exact iff_of_false (by decide) hs

/-- The dispatch of init. -/
theorem dispatch (h : Alone n k) :
    ∃ c, c.minp = initproc ∧ c.nxt = 0 ∧ Table.step k .dispatch = some (switch k c) := by
  obtain ⟨c, hc, -⟩ := (select_spec k).2 initproc 0 (h.candidate_iff.mpr ⟨rfl, rfl⟩)
  obtain ⟨hminp, hnxt⟩ := h.candidate_iff.mp ((select_spec k).1 c hc).candidate
  refine ⟨c, hminp, hnxt, ?_⟩
  simp only [Table.step, h.current, hc, Option.map_some]

theorem pass_switch (h : Alone n k) (c : Choice) :
    ((switch k c).pstat 0) = ⟨true, 1, maxStride, int (maxStride * (n + 2)), 1, n + 1⟩ := by
  have hsum : maxStride * (n + 1) + maxStride = maxStride * (n + 2) := by ring
  show Function.update k.pstat k.curr _ 0 = _
  rw [h.curr, Function.update_self, h.slot]
  dsimp only
  rw [hsum]

/-- A quantum of init, while the charge fits. -/
theorem quantum (h : Alone n k) {c : Choice} (hminp : c.minp = initproc) (hnxt : c.nxt = 0)
    (hlt : maxStride * ((n : ℤ) + 2) < 2 ^ 31) : Alone (n + 1) (yield (switch k c) initproc) := by
  have hint : int (maxStride * ((n : ℤ) + 2)) = maxStride * ((n + 1 : ℕ) + 1) := by
    rw [int_eq ⟨by unfold maxStride; omega, hlt⟩]
    push_cast
    ring
  refine ⟨?_, ?_, fun s hs => ?_, hnxt, rfl⟩
  · funext p
    show Function.update (Function.update k.proc c.minp _) initproc _ p = _
    rw [hminp, Function.update_idem, h.proc]
    rcases eq_or_ne p initproc with rfl | hp
    · simp only [switch, hminp, Function.update_self, h.proc]
      rfl
    · rw [Function.update_of_ne hp]
  · show (switch k c).pstat 0 = _
    rw [h.pass_switch, hint]
  · show (Function.update k.pstat k.curr _ s).pid = 0
    rw [h.curr, Function.update_of_ne hs]
    exact h.rest s hs

/-- The next quantum is a run of two steps. -/
theorem reachable_succ {x : Books} (h : Alone n x.kernel) (hx : accounts.Reachable x)
    (hlt : maxStride * ((n : ℤ) + 2) < 2 ^ 31) : ∃ y, accounts.Reachable y ∧ Alone (n + 1) y.kernel := by
  obtain ⟨c, hminp, hnxt, hdisp⟩ := h.dispatch
  have hyield : Table.step (switch x.kernel c) .yield = some (yield (switch x.kernel c) initproc) := by
    rw [← hminp]
    rfl
  exact ⟨⟨_, _⟩, .step (.step (t := ⟨_, _⟩) hx (a := .dispatch) ⟨hdisp, rfl⟩) (a := .yield) ⟨hyield, rfl⟩,
    h.quantum hminp hnxt hlt⟩

end Alone

theorem reachable_alone {n : ℕ} (hn : n ≤ 131070) : ∃ x, accounts.Reachable x ∧ Alone n x.kernel := by
  induction n with
  | zero => exact ⟨_, .init rfl, alone_userinit⟩
  | succ n ih =>
    obtain ⟨x, hx, h⟩ := ih (by omega)
    exact h.reachable_succ hx (by unfold maxStride; omega)

/-- **The pass overflows.** Init alone, with its one ticket, has the least pass of all after 131071 quanta. -/
theorem pass_overflows : ¬ ∀ x y, accounts.Reachable x → accounts.step x .dispatch y →
    Grows x.kernel y.kernel ∧ Ordered y := by
  intro hall
  obtain ⟨x, hx, h⟩ := reachable_alone (n := 131070) le_rfl
  obtain ⟨c, -, -, hdisp⟩ := h.dispatch
  obtain ⟨⟨hr, -⟩, -⟩ := hall x ⟨_, _⟩ hx ⟨hdisp, rfl⟩
  obtain ⟨-, hlt⟩ := hr
  rw [h.curr, h.slot] at hlt
  exact absurd hlt (by decide)

end OperatingSystems.Stride.Overflow
