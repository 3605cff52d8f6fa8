import AirHuim.Library.Trace

/-!
# The memory guard under threads

The calls of `try_alloc`, `force_alloc` and `free` on one guard, split into
their atomic steps, any number of threads interleaving freely. A reservation is
optimistic: it is added first, compared with the budget, and taken back if it
does not fit. A release looks at the counter first and subtracts later.

`never_overcommits` is about threads that give every granted reservation back
once; `never_wraps_iff` is about threads that free what they like.
-/

namespace AirHuim

open Library

/-- Counters are `usize` and wrap, as in a release build. -/
def usizeBound : ℕ := 2 ^ 64

def fetchAdd (used bytes : ℕ) : ℕ := (used + bytes) % usizeBound

def fetchSub (used bytes : ℕ) : ℕ := (used + (usizeBound - bytes % usizeBound)) % usizeBound

/-- `prev + bytes > budget`. -/
def refuses (budget prev bytes : ℕ) : Bool := decide (budget < fetchAdd prev bytes)

inductive GuardCall
  | tryAlloc (bytes : ℕ)
  | forceAlloc (bytes : ℕ)
  | free (bytes : ℕ)
  deriving DecidableEq, Repr

/-- Where a thread is in a call: the step that it makes next. -/
inductive GuardPc
  | idle
  /-- `used.fetch_add` of `try_alloc`. -/
  | reserving (bytes : ℕ)
  /-- The comparison with the budget. -/
  | comparing (prev bytes : ℕ)
  /-- `used.fetch_sub` of a `try_alloc` that is refused. -/
  | rollingBack (bytes : ℕ)
  /-- `used.fetch_add` of `force_alloc`. -/
  | forcing (bytes : ℕ)
  /-- `used.load` of `free`. -/
  | loading (bytes : ℕ)
  /-- `used.fetch_sub` of `free`, of the `amount` computed from the load. -/
  | releasing (bytes amount : ℕ)
  deriving DecidableEq, Repr

theorem fetchAdd_of_lt {used bytes : ℕ} (h : used + bytes < usizeBound) :
    fetchAdd used bytes = used + bytes :=
  Nat.mod_eq_of_lt h

theorem fetchSub_of_le {used bytes : ℕ} (hused : used < usizeBound) (h : bytes ≤ used) :
    fetchSub used bytes = used - bytes := by
  unfold fetchSub
  rw [Nat.mod_eq_of_lt (lt_of_le_of_lt h hused)]
  have hsum : used + (usizeBound - bytes) = used - bytes + usizeBound := by omega
  rw [hsum, Nat.add_mod_right, Nat.mod_eq_of_lt (by omega)]

namespace GuardPc

/-- What the thread has in the counter. -/
def counted : GuardPc → ℕ
  | .comparing _ bytes => bytes
  | .rollingBack bytes => bytes
  | .loading bytes => bytes
  | .releasing bytes _ => bytes
  | _ => 0

/-- What it is about to add. -/
def asked : GuardPc → ℕ
  | .reserving bytes => bytes
  | _ => 0

/-- What it was granted, or will be, and has not taken out of the counter. -/
def held (budget : ℕ) : GuardPc → ℕ
  | .comparing prev bytes => if refuses budget prev bytes then 0 else bytes
  | .loading bytes => bytes
  | .releasing bytes _ => bytes
  | _ => 0

/-- The reservation that a `free` under way is taking out of the counter. -/
def freed : GuardPc → ℕ
  | .loading bytes => bytes
  | .releasing bytes _ => bytes
  | _ => 0

theorem held_le_counted (budget : ℕ) (pc : GuardPc) : pc.held budget ≤ pc.counted := by
  cases pc with
  | comparing prev bytes =>
    simp only [held, counted]
    split <;> omega
  | _ => simp [held, counted]

theorem freed_le_held (budget : ℕ) (pc : GuardPc) : pc.freed ≤ pc.held budget := by
  cases pc with
  | comparing prev bytes => exact Nat.zero_le _
  | _ => exact Nat.le_refl _

end GuardPc

/-- The guard's counter and budget, the threads, and for the specification the
sizes of the reservations that were granted and not passed to `free` since. -/
structure SharedGuard where
  used : ℕ
  budget : ℕ
  granted : List ℕ
  threads : List GuardPc
  deriving DecidableEq, Repr

inductive GuardEvent
  /-- Thread `t`, if idle, makes a call. -/
  | start (t : ℕ) (call : GuardCall)
  /-- Thread `t` makes its next step. -/
  | advance (t : ℕ)
  deriving DecidableEq, Repr

/-- The bytes that an event asks for. -/
def GuardEvent.requested : GuardEvent → ℕ
  | .start _ (.tryAlloc bytes) => bytes
  | _ => 0

namespace SharedGuard

def new (budget threads : ℕ) : SharedGuard := ⟨0, budget, [], List.replicate threads .idle⟩

def start (g : SharedGuard) (t : ℕ) : GuardCall → SharedGuard
  | .tryAlloc bytes => { g with threads := g.threads.set t (.reserving bytes) }
  | .forceAlloc bytes => { g with threads := g.threads.set t (.forcing bytes) }
  | .free bytes =>
    { g with threads := g.threads.set t (.loading bytes), granted := g.granted.erase bytes }

def advance (g : SharedGuard) (t : ℕ) : GuardPc → SharedGuard
  | .idle => g
  | .reserving bytes =>
    { g with
      used := fetchAdd g.used bytes
      threads := g.threads.set t (.comparing g.used bytes) }
  | .comparing prev bytes =>
    if refuses g.budget prev bytes then { g with threads := g.threads.set t (.rollingBack bytes) }
    else { g with threads := g.threads.set t .idle, granted := bytes :: g.granted }
  | .rollingBack bytes =>
    { g with used := fetchSub g.used bytes, threads := g.threads.set t .idle }
  | .forcing bytes => { g with used := fetchAdd g.used bytes, threads := g.threads.set t .idle }
  | .loading bytes => { g with threads := g.threads.set t (.releasing bytes (min bytes g.used)) }
  | .releasing _ amount =>
    { g with used := fetchSub g.used amount, threads := g.threads.set t .idle }

def step (g : SharedGuard) : GuardEvent → SharedGuard
  | .start t call =>
    match g.threads[t]? with
    | some .idle => g.start t call
    | _ => g
  | .advance t =>
    match g.threads[t]? with
    | some pc => g.advance t pc
    | none => g

variable {g : SharedGuard} {pc : GuardPc} {t : ℕ}

theorem step_advance (ht : g.threads[t]? = some pc) : g.step (.advance t) = g.advance t pc := by
  simp [step, ht]

theorem step_start (ht : g.threads[t]? = some .idle) (call : GuardCall) :
    g.step (.start t call) = g.start t call := by
  simp [step, ht]

/-- A step of a thread that does not exist, or a call of one that is not idle. -/
theorem step_eq_self_or (g : SharedGuard) (e : GuardEvent) : g.step e = g ∨
    (∃ t call, e = .start t call ∧ g.threads[t]? = some .idle) ∨
      ∃ t pc, e = .advance t ∧ g.threads[t]? = some pc := by
  cases e with
  | start t call =>
    unfold step
    dsimp only
    split
    case h_1 ht => exact Or.inr (Or.inl ⟨t, call, rfl, ht⟩)
    case h_2 => exact Or.inl rfl
  | advance t =>
    cases ht : g.threads[t]? with
    | none => exact Or.inl (by simp only [step, ht])
    | some pc => exact Or.inr (Or.inr ⟨t, pc, rfl, ht⟩)

/-- A sum over the threads. -/
def total (g : SharedGuard) (f : GuardPc → ℕ) : ℕ := (g.threads.map f).sum

theorem total_new (budget threads : ℕ) {f : GuardPc → ℕ} (hf : f .idle = 0) :
    (new budget threads).total f = 0 := by
  simp [new, total, hf]

theorem total_of_idle (h : ∀ pc ∈ g.threads, pc = .idle) {f : GuardPc → ℕ} (hf : f .idle = 0) :
    g.total f = 0 := by
  apply List.sum_eq_zero
  intro n hn
  obtain ⟨pc, hpc, rfl⟩ := List.mem_map.mp hn
  rw [h pc hpc, hf]

theorem total_mono {f f' : GuardPc → ℕ} (h : ∀ pc, f pc ≤ f' pc) (g : SharedGuard) :
    g.total f ≤ g.total f' :=
  List.sum_le_sum fun pc _ => h pc

theorem le_total (ht : g.threads[t]? = some pc) (f : GuardPc → ℕ) : f pc ≤ g.total f :=
  List.single_le_sum (fun _ _ => Nat.zero_le _) _
    (List.mem_map_of_mem (List.mem_of_getElem? ht))

/-! ## Reservations that are given back once -/

/-- The sum of the granted reservations, until the `fetch_sub` of their `free`. -/
def reserved (g : SharedGuard) : ℕ := g.granted.sum + g.total GuardPc.freed

/-- All that was granted or asked for and is not given back. -/
def demand (g : SharedGuard) : ℕ :=
  g.granted.sum + g.total GuardPc.counted + g.total GuardPc.asked

/-- What a thread may do: ask for bytes that `usize` has room for, or give back
a reservation that was granted and not given back before. -/
def Allowed (g : SharedGuard) : GuardEvent → Prop
  | .start _ (.tryAlloc bytes) => g.demand + bytes < usizeBound
  | .start _ (.forceAlloc _) => False
  | .start _ (.free bytes) => bytes ∈ g.granted
  | .advance _ => True

/-- The part of this that is not about `usize`. -/
def GivesBack (g : SharedGuard) : GuardEvent → Prop
  | .start _ (.forceAlloc _) => False
  | .start _ (.free bytes) => bytes ∈ g.granted
  | _ => True

instance (g : SharedGuard) (e : GuardEvent) : Decidable (g.Allowed e) :=
  match e with
  | .start _ (.tryAlloc bytes) => inferInstanceAs (Decidable (g.demand + bytes < usizeBound))
  | .start _ (.forceAlloc _) => inferInstanceAs (Decidable False)
  | .start _ (.free bytes) => inferInstanceAs (Decidable (bytes ∈ g.granted))
  | .advance _ => inferInstanceAs (Decidable True)

structure NotOvercommitted (g : SharedGuard) : Prop where
  within : g.reserved ≤ g.budget
  covered : g.reserved ≤ g.used
  quiet : (∀ pc ∈ g.threads, pc = .idle) → g.used = g.reserved

/-- The counter is the granted reservations and what the calls under way have in
it, and those of them that are granted in the end are within the budget. -/
structure Balanced (g : SharedGuard) : Prop where
  used : g.used = g.granted.sum + g.total GuardPc.counted
  within : g.granted.sum + g.total (GuardPc.held g.budget) ≤ g.budget
  fits : g.demand < usizeBound
  exact : ∀ pc ∈ g.threads, ∀ bytes amount, pc = .releasing bytes amount → amount = bytes
  forcing : ∀ pc ∈ g.threads, ∀ bytes, pc ≠ .forcing bytes

theorem total_set (ht : g.threads[t]? = some pc) (next : GuardPc) (f : GuardPc → ℕ) :
    ((g.threads.set t next).map f).sum + f pc = g.total f + f next :=
  sum_map_set ht next f

theorem sum_erase_add {bytes : ℕ} (h : bytes ∈ g.granted) :
    (g.granted.erase bytes).sum + bytes = g.granted.sum := by
  rw [(List.perm_cons_erase h).sum_eq, List.sum_cons, add_comm]

theorem Balanced.new (budget threads : ℕ) : Balanced (new budget threads) where
  used := (total_new budget threads (f := GuardPc.counted) rfl).symm.trans (Nat.zero_add _).symm
  within := by
    have hheld := total_new budget threads (f := GuardPc.held budget) rfl
    exact (Nat.zero_add _).trans_le (hheld.trans_le (Nat.zero_le budget))
  fits := by
    have hcounted := total_new budget threads (f := GuardPc.counted) rfl
    have hasked := total_new budget threads (f := GuardPc.asked) rfl
    rw [demand, hcounted, hasked]
    exact Nat.two_pow_pos 64
  exact pc hpc bytes amount heq := by
    rw [List.eq_of_mem_replicate hpc] at heq
    cases heq
  forcing pc hpc bytes heq := by
    rw [List.eq_of_mem_replicate hpc] at heq
    cases heq

/-- One thread moves from `pc` to `next`, and the counter and the reservations
change by what this changes. -/
theorem Balanced.move (h : Balanced g) (ht : g.threads[t]? = some pc) {next : GuardPc}
    {used : ℕ} {granted : List ℕ}
    (hused : used + g.granted.sum + pc.counted = g.used + granted.sum + next.counted)
    (hwithin : granted.sum + g.total (GuardPc.held g.budget) + next.held g.budget ≤
      g.budget + pc.held g.budget)
    (hfits : granted.sum + next.counted + next.asked + g.demand <
      usizeBound + g.granted.sum + pc.counted + pc.asked)
    (hexact : ∀ bytes amount, next = .releasing bytes amount → amount = bytes)
    (hforcing : ∀ bytes, next ≠ .forcing bytes) :
    Balanced ⟨used, g.budget, granted, g.threads.set t next⟩ where
  used := by
    have hcounted := total_set ht next GuardPc.counted
    have hbefore := h.used
    simp only [total] at *
    omega
  within := by
    have hheld := total_set ht next (GuardPc.held g.budget)
    simp only [total] at *
    omega
  fits := by
    have hcounted := total_set ht next GuardPc.counted
    have hasked := total_set ht next GuardPc.asked
    simp only [demand, total] at *
    omega
  exact := all_set h.exact hexact t
  forcing := all_set h.forcing hforcing t

theorem Balanced.start (h : Balanced g) (ht : g.threads[t]? = some .idle) {call : GuardCall}
    (hallowed : g.Allowed (.start t call)) : Balanced (g.start t call) := by
  have hwithin := h.within
  cases call with
  | forceAlloc bytes => exact hallowed.elim
  | tryAlloc bytes =>
    have hroom : g.demand + bytes < usizeBound := hallowed
    refine h.move ht ?_ ?_ ?_ nofun nofun
    all_goals
      simp only [GuardPc.counted, GuardPc.asked, GuardPc.held] <;> omega
  | free bytes =>
    have herase := sum_erase_add hallowed
    have hfits := h.fits
    refine h.move ht ?_ ?_ ?_ nofun nofun
    all_goals
      simp only [GuardPc.counted, GuardPc.asked, GuardPc.held]
      omega

theorem Balanced.advance (h : Balanced g) (ht : g.threads[t]? = some pc) :
    Balanced (g.advance t pc) := by
  have hused := h.used
  have hwithin := h.within
  have hfits := h.fits
  have hcounted := le_total ht GuardPc.counted
  have hasked := le_total ht GuardPc.asked
  have hheld := total_mono (GuardPc.held_le_counted g.budget) g
  have hmem := List.mem_of_getElem? ht
  have hbelow : g.used + g.total GuardPc.asked < usizeBound := by
    simp only [demand] at hfits
    omega
  cases pc with
  | idle => exact h
  | forcing bytes => exact (h.forcing _ hmem bytes rfl).elim
  | reserving bytes =>
    simp only [GuardPc.asked] at hasked
    have hadd : fetchAdd g.used bytes = g.used + bytes := fetchAdd_of_lt (by omega)
    refine h.move ht ?_ ?_ ?_ nofun nofun
    · simp only [GuardPc.counted, hadd]
      omega
    · -- all that is held is in the counter, so what fits on top of it fits on top of that
      simp only [GuardPc.held, refuses, hadd, decide_eq_true_eq]
      split <;> omega
    · simp only [GuardPc.counted, GuardPc.asked]
      omega
  | comparing prev bytes =>
    simp only [SharedGuard.advance]
    cases hrefuses : refuses g.budget prev bytes with
    | true =>
      refine h.move ht ?_ ?_ ?_ nofun nofun
      all_goals
        simp only [GuardPc.counted, GuardPc.asked, GuardPc.held, hrefuses, if_true] <;> omega
    | false =>
      refine h.move ht ?_ ?_ ?_ nofun nofun
      all_goals
        simp only [GuardPc.counted, GuardPc.asked, GuardPc.held, hrefuses, List.sum_cons,
          Bool.false_eq_true, if_false]
        omega
  | rollingBack bytes =>
    simp only [GuardPc.counted] at hcounted
    have hsub : fetchSub g.used bytes = g.used - bytes := fetchSub_of_le (by omega) (by omega)
    refine h.move ht ?_ ?_ ?_ nofun nofun
    all_goals
      simp only [GuardPc.counted, GuardPc.asked, GuardPc.held, hsub]
      omega
  | loading bytes =>
    simp only [GuardPc.counted] at hcounted
    refine h.move ht ?_ ?_ ?_ (fun bytes' amount heq => ?_) nofun
    case refine_4 =>
      cases heq
      omega
    all_goals
      simp only [GuardPc.counted, GuardPc.asked, GuardPc.held] <;> omega
  | releasing bytes amount =>
    obtain rfl : amount = bytes := h.exact _ hmem bytes amount rfl
    simp only [GuardPc.counted] at hcounted
    have hsub : fetchSub g.used amount = g.used - amount := fetchSub_of_le (by omega) (by omega)
    refine h.move ht ?_ ?_ ?_ nofun nofun
    all_goals
      simp only [GuardPc.counted, GuardPc.asked, GuardPc.held, hsub]
      omega

theorem Balanced.step (h : Balanced g) {e : GuardEvent} (hallowed : g.Allowed e) :
    Balanced (g.step e) := by
  rcases g.step_eq_self_or e with heq | ⟨t, call, rfl, ht⟩ | ⟨t, pc, rfl, ht⟩
  · rw [heq]
    exact h
  · rw [step_start ht]
    exact h.start ht hallowed
  · rw [step_advance ht]
    exact h.advance ht

theorem Balanced.notOvercommitted (h : Balanced g) : NotOvercommitted g where
  within := by
    have hfreed := total_mono (GuardPc.freed_le_held g.budget) g
    have hwithin := h.within
    unfold reserved
    omega
  covered := by
    have hfreed := total_mono (GuardPc.freed_le_held g.budget) g
    have hheld := total_mono (GuardPc.held_le_counted g.budget) g
    have hused := h.used
    unfold reserved
    omega
  quiet hidle := by rw [h.used, reserved, total_of_idle hidle rfl, total_of_idle hidle rfl]

/-- However the calls of threads that free what they were granted interleave,
the granted reservations stay within the budget and in the counter. -/
theorem never_overcommits (budget threads : ℕ) (events : List GuardEvent)
    (hallowed : AllSteps step Allowed (new budget threads) events) :
    AllStates step NotOvercommitted (new budget threads) events :=
  (AllStates.of_steps (fun _ _ h hop => h.step hop) (Balanced.new budget threads) hallowed).mono
    fun _ h => h.notOvercommitted

theorem demand_start (ht : g.threads[t]? = some .idle) {call : GuardCall}
    (h : g.GivesBack (.start t call)) :
    (g.start t call).demand ≤ g.demand + (GuardEvent.start t call).requested := by
  cases call with
  | forceAlloc bytes => exact h.elim
  | tryAlloc bytes =>
    have hcounted := total_set ht (.reserving bytes) GuardPc.counted
    have hasked := total_set ht (.reserving bytes) GuardPc.asked
    simp only [GuardPc.counted, GuardPc.asked] at hcounted hasked
    simp only [demand, start, total, GuardEvent.requested] at hcounted hasked ⊢
    omega
  | free bytes =>
    have hcounted := total_set ht (.loading bytes) GuardPc.counted
    have hasked := total_set ht (.loading bytes) GuardPc.asked
    have herase := sum_erase_add h
    simp only [GuardPc.counted, GuardPc.asked] at hcounted hasked
    simp only [demand, start, total, GuardEvent.requested] at hcounted hasked ⊢
    omega

theorem demand_advance (ht : g.threads[t]? = some pc) : (g.advance t pc).demand ≤ g.demand := by
  have hmove : ∀ next : GuardPc, ∀ bytes : ℕ, bytes + next.counted + next.asked ≤
      pc.counted + pc.asked → bytes + ((g.threads.set t next).map GuardPc.counted).sum +
        ((g.threads.set t next).map GuardPc.asked).sum ≤
          g.total GuardPc.counted + g.total GuardPc.asked := by
    intro next bytes hle
    have hcounted := total_set ht next GuardPc.counted
    have hasked := total_set ht next GuardPc.asked
    omega
  cases pc with
  | idle => exact le_rfl
  | comparing prev bytes =>
    simp only [advance]
    split
    · have hnext := hmove (.rollingBack bytes) 0 (by simp [GuardPc.counted, GuardPc.asked])
      simp only [demand, total] at hnext ⊢
      omega
    · have hnext := hmove .idle bytes (by simp [GuardPc.counted, GuardPc.asked])
      simp only [demand, total, List.sum_cons] at hnext ⊢
      omega
  | reserving bytes =>
    have hnext := hmove (.comparing g.used bytes) 0 (by simp [GuardPc.counted, GuardPc.asked])
    simp only [demand, total, advance] at hnext ⊢
    omega
  | loading bytes =>
    have hnext := hmove (.releasing bytes (min bytes g.used)) 0
      (by simp [GuardPc.counted, GuardPc.asked])
    simp only [demand, total, advance] at hnext ⊢
    omega
  | _ =>
    have hnext := hmove .idle 0 (by simp [GuardPc.counted, GuardPc.asked])
    simp only [demand, total, advance] at hnext ⊢
    omega

/-- Calls whose sizes fit `usize` all together are allowed. -/
theorem allowed_of_requested {events : List GuardEvent} (h : AllSteps step GivesBack g events)
    (hsum : g.demand + (events.map GuardEvent.requested).sum < usizeBound) :
    AllSteps step Allowed g events := by
  induction events generalizing g with
  | nil => trivial
  | cons e es ih =>
    rw [List.map_cons, List.sum_cons] at hsum
    have hdemand : (g.step e).demand ≤ g.demand + e.requested := by
      rcases g.step_eq_self_or e with heq | ⟨t, call, rfl, ht⟩ | ⟨t, pc, rfl, ht⟩
      · rw [heq]
        exact Nat.le_add_right _ _
      · rw [step_start ht]
        exact demand_start ht h.1
      · rw [step_advance ht]
        exact (demand_advance ht).trans (Nat.le_add_right _ _)
    refine ⟨?_, ih h.2 (by omega)⟩
    have hback := h.1
    match e with
    | .start _ (.tryAlloc bytes) =>
      simp only [GuardEvent.requested] at hsum
      exact (by omega : g.demand + bytes < usizeBound)
    | .start _ (.forceAlloc _) => exact hback
    | .start _ (.free _) => exact hback
    | .advance _ => trivial

/-- Thread 1 is refused while thread 0 has its reservation, and granted after. -/
theorem never_overcommits_two :
    AllStates step NotOvercommitted (new 100 2)
      [.start 0 (.tryAlloc 60), .start 1 (.tryAlloc 50), .advance 0, .advance 1, .advance 0,
        .advance 1, .start 0 (.free 60), .advance 0, .advance 1, .advance 0,
        .start 1 (.tryAlloc 50), .advance 1, .advance 1] :=
  never_overcommits 100 2 _ (by decide)

end SharedGuard

/-! ## Frees of any bytes -/

namespace GuardPc

/-- What the call has still to subtract, once that is decided. -/
def owes (budget : ℕ) : GuardPc → ℕ
  | .comparing prev bytes => if refuses budget prev bytes then bytes else 0
  | .rollingBack bytes => bytes
  | .releasing _ amount => amount
  | _ => 0

/-- What the next step adds to what the call owes. -/
def fixes (budget used : ℕ) : GuardPc → ℕ
  | .reserving bytes => (GuardPc.comparing used bytes).owes budget
  | .loading bytes => min bytes used
  | _ => 0

/-- What the next step subtracts. -/
def subtracts : GuardPc → ℕ
  | .rollingBack bytes => bytes
  | .releasing _ amount => amount
  | _ => 0

theorem subtracts_le_owes (budget : ℕ) (pc : GuardPc) : pc.subtracts ≤ pc.owes budget := by
  cases pc with
  | comparing prev bytes => exact Nat.zero_le _
  | _ => exact Nat.le_refl _

/-- The steps that an owing call still makes. -/
def stepsLeft (budget : ℕ) : GuardPc → ℕ
  | .comparing prev bytes => if refuses budget prev bytes then 2 else 0
  | .rollingBack _ => 1
  | .releasing _ _ => 1
  | _ => 0

end GuardPc

namespace SharedGuard

variable {g : SharedGuard} {pc : GuardPc} {t : ℕ}

/-- What the calls under way have still to subtract. -/
def owed (g : SharedGuard) : ℕ := g.total (GuardPc.owes g.budget)

/-- No `fetch_sub` takes more than the counter has. -/
def NoWrap (g : SharedGuard) : GuardEvent → Prop
  | .advance t => ∀ pc, g.threads[t]? = some pc → pc.subtracts ≤ g.used
  | .start _ _ => True

/-- A step that fixes what is going to be subtracted, or that adds to the counter,
leaves in it all that is owed then. -/
def Covers (g : SharedGuard) : GuardPc → Prop
  | .reserving bytes =>
    g.owed + (GuardPc.reserving bytes).fixes g.budget g.used ≤ fetchAdd g.used bytes
  | .forcing bytes => g.owed ≤ fetchAdd g.used bytes
  | .loading bytes => g.owed + (GuardPc.loading bytes).fixes g.budget g.used ≤ g.used
  | _ => True

def Covered (g : SharedGuard) : GuardEvent → Prop
  | .advance t => ∀ pc, g.threads[t]? = some pc → g.Covers pc
  | .start _ _ => True

/-- A step of a call that has something to subtract. -/
def Settling (g : SharedGuard) : GuardEvent → Prop
  | .advance t => ∃ pc, g.threads[t]? = some pc ∧ 0 < pc.owes g.budget
  | .start _ _ => False

/-- The counter has all that is owed. -/
structure Solvent (g : SharedGuard) : Prop where
  bound : g.used < usizeBound
  covers : g.owed ≤ g.used

theorem budget_advance (g : SharedGuard) (t : ℕ) (pc : GuardPc) :
    (g.advance t pc).budget = g.budget := by
  cases pc with
  | comparing prev bytes =>
    simp only [advance]
    split <;> rfl
  | _ => rfl

theorem owed_advance (ht : g.threads[t]? = some pc) :
    (g.advance t pc).owed + pc.subtracts = g.owed + pc.fixes g.budget g.used := by
  cases pc with
  | idle => rfl
  | comparing prev bytes =>
    simp only [advance]
    cases hrefuses : refuses g.budget prev bytes with
    | true =>
      have hset := total_set ht (.rollingBack bytes) (GuardPc.owes g.budget)
      simp only [GuardPc.owes, hrefuses, if_true] at hset
      exact congrArg (· + 0) (Nat.add_right_cancel hset)
    | false =>
      have hset := total_set ht .idle (GuardPc.owes g.budget)
      simp only [GuardPc.owes, hrefuses, Bool.false_eq_true, if_false] at hset
      exact hset
  | reserving bytes => exact total_set ht (.comparing g.used bytes) (GuardPc.owes g.budget)
  | rollingBack bytes => exact total_set ht .idle (GuardPc.owes g.budget)
  | forcing bytes => exact total_set ht .idle (GuardPc.owes g.budget)
  | loading bytes =>
    exact total_set ht (.releasing bytes (min bytes g.used)) (GuardPc.owes g.budget)
  | releasing bytes amount => exact total_set ht .idle (GuardPc.owes g.budget)

theorem used_lt_advance (h : g.used < usizeBound) (t : ℕ) (pc : GuardPc) :
    (g.advance t pc).used < usizeBound := by
  have hpos : 0 < usizeBound := Nat.two_pow_pos 64
  cases pc with
  | comparing prev bytes =>
    simp only [advance]
    split <;> exact h
  | reserving bytes => exact Nat.mod_lt _ hpos
  | rollingBack bytes => exact Nat.mod_lt _ hpos
  | forcing bytes => exact Nat.mod_lt _ hpos
  | releasing bytes amount => exact Nat.mod_lt _ hpos
  | idle => exact h
  | loading bytes => exact h

/-- A covered step leaves the counter with all that is owed, and only such a step. -/
theorem covers_iff (h : Solvent g) (ht : g.threads[t]? = some pc) :
    (g.advance t pc).owed ≤ (g.advance t pc).used ↔ g.Covers pc := by
  have howed := owed_advance ht
  have hbound := h.bound
  have hcovers := h.covers
  have hsub : pc.subtracts ≤ g.owed :=
    (pc.subtracts_le_owes g.budget).trans (le_total ht (GuardPc.owes g.budget))
  cases pc with
  | idle => exact iff_true_intro hcovers
  | comparing prev bytes =>
    have hused : (g.advance t (.comparing prev bytes)).used = g.used := by
      simp only [advance]
      split <;> rfl
    rw [hused]
    exact iff_of_true (howed.trans_le hcovers) trivial
  | reserving bytes => exact iff_of_eq (congrArg (· ≤ fetchAdd g.used bytes) howed)
  | forcing bytes => exact iff_of_eq (congrArg (· ≤ fetchAdd g.used bytes) howed)
  | loading bytes => exact iff_of_eq (congrArg (· ≤ g.used) howed)
  | rollingBack bytes =>
    simp only [GuardPc.subtracts, GuardPc.fixes] at howed hsub
    have hused := fetchSub_of_le hbound (hsub.trans hcovers)
    refine iff_of_true ?_ trivial
    change _ ≤ fetchSub g.used bytes
    omega
  | releasing bytes amount =>
    simp only [GuardPc.subtracts, GuardPc.fixes] at howed hsub
    have hused := fetchSub_of_le hbound (hsub.trans hcovers)
    refine iff_of_true ?_ trivial
    change _ ≤ fetchSub g.used amount
    omega

theorem Solvent.step (h : Solvent g) {e : GuardEvent} (hcovered : g.Covered e) :
    Solvent (g.step e) := by
  rcases g.step_eq_self_or e with heq | ⟨t, call, rfl, ht⟩ | ⟨t, pc, rfl, ht⟩
  · rw [heq]
    exact h
  · rw [step_start ht]
    refine ⟨by cases call <;> exact h.bound, ?_⟩
    cases call with
    | tryAlloc bytes =>
      exact (total_set ht (.reserving bytes) (GuardPc.owes g.budget)).trans_le h.covers
    | forceAlloc bytes =>
      exact (total_set ht (.forcing bytes) (GuardPc.owes g.budget)).trans_le h.covers
    | free bytes =>
      exact (total_set ht (.loading bytes) (GuardPc.owes g.budget)).trans_le h.covers
  · rw [step_advance ht]
    exact ⟨used_lt_advance h.bound t pc, (covers_iff h ht).mpr (hcovered pc ht)⟩

theorem Solvent.noWrap (h : Solvent g) (e : GuardEvent) : g.NoWrap e := by
  cases e with
  | start t call => trivial
  | advance t =>
    intro pc ht
    exact ((pc.subtracts_le_owes g.budget).trans (le_total ht (GuardPc.owes g.budget))).trans
      h.covers

theorem noWrap_of_covered (h : Solvent g) {events : List GuardEvent}
    (hcovered : AllSteps step Covered g events) : AllSteps step NoWrap g events := by
  induction events generalizing g with
  | nil => trivial
  | cons e es ih => exact ⟨h.noWrap e, ih (h.step hcovered.1) hcovered.2⟩

theorem covered_of_settling {e : GuardEvent} (h : g.Settling e) : g.Covered e := by
  cases e with
  | start t call => trivial
  | advance t =>
    intro pc ht
    obtain ⟨pc', ht', hpos⟩ := h
    rw [ht] at ht'
    cases ht'
    cases pc with
    | reserving bytes => exact (Nat.lt_irrefl 0 hpos).elim
    | forcing bytes => exact (Nat.lt_irrefl 0 hpos).elim
    | loading bytes => exact (Nat.lt_irrefl 0 hpos).elim
    | _ => trivial

theorem insolvent_of_not_covered (h : Solvent g) {e : GuardEvent} (hnot : ¬ g.Covered e) :
    (g.step e).used < usizeBound ∧ (g.step e).used < (g.step e).owed := by
  cases e with
  | start t call => exact (hnot trivial).elim
  | advance t =>
    simp only [Covered, not_forall] at hnot
    obtain ⟨pc, ht, hcovers⟩ := hnot
    rw [step_advance ht]
    rw [← covers_iff h ht, not_le] at hcovers
    exact ⟨used_lt_advance h.bound t pc, hcovers⟩

/-- A call that owes makes a step that does not wrap: what is missing stays
missing, and there is one step less to go. -/
theorem wrap_nearer (ht : g.threads[t]? = some pc) (hbound : g.used < usizeBound)
    (howed : g.used < g.owed) (hpos : 0 < pc.owes g.budget) (hwrap : pc.subtracts ≤ g.used) :
    (g.advance t pc).used < (g.advance t pc).owed ∧
      (g.advance t pc).total (GuardPc.stepsLeft (g.advance t pc).budget) <
        g.total (GuardPc.stepsLeft g.budget) := by
  have howes := owed_advance ht
  rw [budget_advance]
  cases pc with
  | comparing prev bytes =>
    cases hrefuses : refuses g.budget prev bytes with
    | false => simp [GuardPc.owes, hrefuses] at hpos
    | true =>
      have hleft := total_set ht (.rollingBack bytes) (GuardPc.stepsLeft g.budget)
      simp only [advance, hrefuses, if_true, GuardPc.stepsLeft] at howes hleft ⊢
      exact ⟨howed.trans_eq howes.symm, by simp only [total] at hleft ⊢; omega⟩
  | rollingBack bytes =>
    have hleft := total_set ht .idle (GuardPc.stepsLeft g.budget)
    have hused : fetchSub g.used bytes = g.used - bytes := fetchSub_of_le hbound hwrap
    simp only [GuardPc.subtracts, GuardPc.fixes, GuardPc.stepsLeft, advance, hused]
      at howes hleft hwrap ⊢
    exact ⟨by omega, by simp only [total] at hleft ⊢; omega⟩
  | releasing bytes amount =>
    have hleft := total_set ht .idle (GuardPc.stepsLeft g.budget)
    have hused : fetchSub g.used amount = g.used - amount := fetchSub_of_le hbound hwrap
    simp only [GuardPc.subtracts, GuardPc.fixes, GuardPc.stepsLeft, advance, hused]
      at howes hleft hwrap ⊢
    exact ⟨by omega, by simp only [total] at hleft ⊢; omega⟩
  | idle => exact (Nat.lt_irrefl 0 hpos).elim
  | reserving bytes => exact (Nat.lt_irrefl 0 hpos).elim
  | forcing bytes => exact (Nat.lt_irrefl 0 hpos).elim
  | loading bytes => exact (Nat.lt_irrefl 0 hpos).elim

/-- A counter that has less than is owed wraps while the calls under way end. -/
theorem exists_wrap (hbound : g.used < usizeBound) (howed : g.used < g.owed) :
    ∃ events, AllSteps step Settling g events ∧ ¬ AllSteps step NoWrap g events := by
  induction hleft : g.total (GuardPc.stepsLeft g.budget) using Nat.strong_induction_on
    generalizing g with
  | _ left ih =>
    obtain ⟨pc, hmem, hpos⟩ : ∃ pc ∈ g.threads, 0 < pc.owes g.budget := by
      by_contra hnone
      push Not at hnone
      have hzero : g.owed = 0 := by
        apply List.sum_eq_zero
        intro n hn
        obtain ⟨pc, hpc, rfl⟩ := List.mem_map.mp hn
        exact Nat.le_zero.mp (hnone pc hpc)
      omega
    obtain ⟨t, ht⟩ := List.getElem?_of_mem hmem
    by_cases hwrap : pc.subtracts ≤ g.used
    · -- this step is fine; the state after it owes as much too much
      have hnext := wrap_nearer ht hbound howed hpos hwrap
      rw [hleft] at hnext
      obtain ⟨events, hsettling, hnot⟩ := ih _ hnext.2 (used_lt_advance hbound t pc) hnext.1 rfl
      refine ⟨.advance t :: events, ⟨⟨pc, ht, hpos⟩, ?_⟩, fun h => hnot ?_⟩
      · rw [step_advance ht]
        exact hsettling
      · rw [← step_advance ht]
        exact h.2
    · exact ⟨[.advance t], ⟨⟨pc, ht, hpos⟩, trivial⟩, fun h => hwrap (h.1 pc ht)⟩

theorem Solvent.new (budget threads : ℕ) : Solvent (new budget threads) :=
  ⟨Nat.two_pow_pos 64, (total_new budget threads (f := GuardPc.owes budget) rfl).le⟩

instance (g : SharedGuard) (e : GuardEvent) : Decidable (g.NoWrap e) :=
  match e with
  | .start _ _ => inferInstanceAs (Decidable True)
  | .advance t =>
    inferInstanceAs (Decidable (∀ pc, g.threads[t]? = some pc → pc.subtracts ≤ g.used))

/-- If every step is covered no subtraction wraps; and only then none wraps in
whatever order the subtractions that are due at any time are carried out. -/
theorem never_wraps_iff (budget threads : ℕ) (events : List GuardEvent) :
    (AllSteps step Covered (new budget threads) events →
        AllSteps step NoWrap (new budget threads) events) ∧
      (AllSteps step Covered (new budget threads) events ↔
        ∀ before later, before <+: events →
          AllSteps step Settling (run step (new budget threads) before) later →
            AllSteps step NoWrap (new budget threads) (before ++ later)) := by
  refine ⟨noWrap_of_covered (Solvent.new budget threads),
    fun hcovered before later hbefore hlater => ?_,
    fun h => ?_⟩
  · obtain ⟨rest, rfl⟩ := hbefore
    refine noWrap_of_covered (Solvent.new budget threads) (allSteps_append.mpr
      ⟨(allSteps_append.mp hcovered).1, hlater.mono fun g e => covered_of_settling⟩)
  · have hsolvent := Solvent.new budget threads
    generalize SharedGuard.new budget threads = g at h hsolvent
    induction events generalizing g with
    | nil => trivial
    | cons e es ih =>
      have hcovered : g.Covered e := by
        by_contra hnot
        obtain ⟨hbound, howed⟩ := insolvent_of_not_covered hsolvent hnot
        obtain ⟨later, hsettling, hwrap⟩ := exists_wrap hbound howed
        exact hwrap (h [e] later ⟨es, rfl⟩ hsettling).2
      refine ⟨hcovered, ih (g.step e) (fun before later hbefore hlater => ?_)
        (hsolvent.step hcovered)⟩
      exact (h (e :: before) later ((List.prefix_cons_inj e).mpr hbefore) hlater).2

/-- Two frees load the counter before either subtracts; and a free of bytes that
nobody reserved takes those of a `try_alloc` that is being refused. -/
theorem not_noWrap_races :
    (¬ AllSteps step NoWrap (new 100 2)
        [.start 0 (.tryAlloc 10), .advance 0, .advance 0, .start 0 (.free 10),
          .start 1 (.free 10), .advance 0, .advance 1, .advance 0, .advance 1] ∧
      (run step (new 100 2)
        [.start 0 (.tryAlloc 10), .advance 0, .advance 0, .start 0 (.free 10),
          .start 1 (.free 10), .advance 0, .advance 1, .advance 0, .advance 1]).used =
        2 ^ 64 - 10) ∧
      ¬ AllSteps step NoWrap (new 10 2)
        [.start 0 (.tryAlloc 20), .advance 0, .start 1 (.free 20), .advance 1, .advance 1,
          .advance 0, .advance 0] := by
  decide

end SharedGuard

end AirHuim
