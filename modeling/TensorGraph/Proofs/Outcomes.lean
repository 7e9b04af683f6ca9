import Mathlib.Data.List.Forall2
import TensorGraph.Pass.Basic

/-!
# Taking computations apart

Each lemma turns one way of putting computations together into a statement about the parts, so that no
later proof has to unfold a monad.
-/

namespace TensorGraph

open List

section Lists

variable {β γ : Type} {related : β → γ → Prop} {items : List β} {others : List γ}

/-- An item of a list has a partner in a list that is related item by item. -/
theorem exists_mem_right_of_forall₂ (hall : Forall₂ related items others) {item : β}
    (hmem : item ∈ items) : ∃ other ∈ others, related item other := by
  induction hall with
  | nil => cases hmem
  | cons hfirst _ ih =>
    rcases mem_cons.1 hmem with rfl | hmem
    · exact ⟨_, mem_cons_self, hfirst⟩
    · obtain ⟨other, hother, hrelated⟩ := ih hmem
      exact ⟨other, mem_cons_of_mem _ hother, hrelated⟩

theorem exists_getElem?_of_forall₂ (hall : Forall₂ related items others) {position : Nat}
    {other : γ} (hother : others[position]? = some other) :
    ∃ item, items[position]? = some item ∧ related item other := by
  induction hall generalizing position with
  | nil => cases hother
  | cons hfirst _ ih =>
    cases position with
    | zero =>
      cases hother
      exact ⟨_, rfl, hfirst⟩
    | succ position => exact ih hother

/-- What is related to one item is one item. -/
theorem exists_of_forall₂_one {item : β} (hall : Forall₂ related [item] others) :
    ∃ other, others = [other] ∧ related item other := by
  obtain ⟨other, _, hrelated, hrest, rfl⟩ := forall₂_cons_left_iff.1 hall
  obtain rfl := forall₂_nil_left_iff.1 hrest
  exact ⟨other, rfl, hrelated⟩

/-- What is known of the items of a list may be used. -/
theorem forall₂_imp_mem {related' : β → γ → Prop} (hall : Forall₂ related items others)
    (himp : ∀ item ∈ items, ∀ other, related item other → related' item other) :
    Forall₂ related' items others :=
  ((forall₂_and_left _ _).2 ⟨himp, hall⟩).imp fun _ _ hboth => hboth.1 _ hboth.2

/-- Items that all have a partner have a list of partners. -/
theorem exists_forall₂ (hall : ∀ item ∈ items, ∃ other, related item other) :
    ∃ others, Forall₂ related items others := by
  induction items with
  | nil => exact ⟨[], .nil⟩
  | cons item items ih =>
    rw [forall_mem_cons] at hall
    obtain ⟨other, hother⟩ := hall.1
    obtain ⟨others, hothers⟩ := ih hall.2
    exact ⟨other :: others, .cons hother hothers⟩

/-- Where the items leave no choice, there is one list that is related to them. -/
theorem eq_of_forall₂ {others' : List γ}
    (hall : Forall₂ (fun item other => ∀ other', related item other' → other = other')
      items others)
    (hall' : Forall₂ related items others') : others = others' := by
  induction hall generalizing others' with
  | nil => exact (forall₂_nil_left_iff.1 hall').symm
  | cons hfirst _ ih =>
    obtain ⟨other', rest', hfirst', hrest', rfl⟩ := forall₂_cons_left_iff.1 hall'
    rw [hfirst other' hfirst', ih hrest']

/-- Lists that are related to one list are related item by item. -/
theorem forall₂_of_common {δ : Type} {left : β → γ → Prop} {right : β → δ → Prop}
    {joined : γ → δ → Prop}
    (hjoined : ∀ ⦃item first second⦄, left item first → right item second → joined first second)
    {firsts : List γ} {seconds : List δ} (hfirsts : Forall₂ left items firsts)
    (hseconds : Forall₂ right items seconds) : Forall₂ joined firsts seconds := by
  induction hfirsts generalizing seconds with
  | nil =>
    obtain rfl := forall₂_nil_left_iff.1 hseconds
    exact .nil
  | cons hfirst _ ih =>
    obtain ⟨second, rest, hsecond, hrest, rfl⟩ := forall₂_cons_left_iff.1 hseconds
    exact .cons (hjoined hfirst hsecond) (ih hrest)

theorem forall₂_eraseIdx (hall : Forall₂ related items others) (position : Nat) :
    Forall₂ related (items.eraseIdx position) (others.eraseIdx position) := by
  induction hall generalizing position with
  | nil => exact .nil
  | cons hfirst hrest ih =>
    cases position with
    | zero => exact hrest
    | succ position => exact .cons hfirst (ih position)

/-- Lists related to a list of runs and a rest fall into such runs and such a rest. -/
theorem forall₂_flatten_append {runs : List (List β)} {rest : List β}
    (hall : Forall₂ related (runs.flatten ++ rest) others) :
    ∃ runs' rest', others = runs'.flatten ++ rest' ∧
      Forall₂ (Forall₂ related) runs runs' ∧ Forall₂ related rest rest' := by
  induction runs generalizing others with
  | nil => exact ⟨[], others, rfl, .nil, hall⟩
  | cons run runs ih =>
    rw [flatten_cons, append_assoc] at hall
    have hrun := (forall₂_take_append _ _ _ hall.flip).flip
    obtain ⟨runs', rest', hothers, hruns, hrest⟩ :=
      ih (forall₂_drop_append _ _ _ hall.flip).flip
    refine ⟨others.take run.length :: runs', rest', ?_, .cons hrun hruns, hrest⟩
    rw [flatten_cons, append_assoc, ← hothers, take_append_drop]

/-- Lists that are made run by run. -/
theorem forall₂_flatMap {make : List β → List γ} {runs : List (List β)}
    (hmake : ∀ run ∈ runs, Forall₂ related run (make run)) :
    Forall₂ related runs.flatten (runs.flatMap make) := by
  induction runs with
  | nil => exact .nil
  | cons run runs ih =>
    rw [forall_mem_cons] at hmake
    rw [flatten_cons, flatMap_cons]
    exact rel_append hmake.1 (ih hmake.2)

end Lists

section Except

variable {ε δ β γ : Type} {items : List β} {value : β} {results : List γ}

theorem Except.pure_eq_ok (value : β) : (pure value : Except ε β) = .ok value := rfl

/-- A sequence gives a value exactly when both parts do. -/
theorem bind_eq_ok_iff {first : Except ε β} {next : β → Except ε γ} {result : γ} :
    first >>= next = .ok result ↔ ∃ value, first = .ok value ∧ next value = .ok result := by
  cases first with
  | ok value => simp [bind, Except.bind]
  | error cause => simp [bind, Except.bind]

@[simp]
theorem ok_bind (value : β) (next : β → Except ε γ) : (Except.ok value >>= next) = next value := rfl

@[simp]
theorem error_bind (cause : ε) (next : β → Except ε γ) :
    (Except.error cause >>= next) = .error cause := rfl

/-- What comes second matters only where the first part gives a value. -/
theorem bind_congr_of_ok {first : Except ε β} {next next' : β → Except ε γ}
    (hnext : ∀ value, first = .ok value → next value = next' value) :
    (first >>= next) = (first >>= next') := by
  cases first with
  | ok value => exact hnext value rfl
  | error cause => rfl

/-- A check that refuses has been passed if there is a result. -/
theorem ite_error_eq_ok_iff {refused : Prop} [Decidable refused] {cause : ε} {computed : Except ε β}
    {result : β} : (if refused then .error cause else computed) = .ok result ↔
      ¬ refused ∧ computed = .ok result := by
  by_cases hrefused : refused <;> simp [hrefused]

/-- Checks that are made one after the other have all been passed. -/
theorem forM_eq_ok_iff {check : β → Except ε Unit} {items : List β} {result : Unit} :
    items.forM check = .ok result ↔ ∀ item ∈ items, check item = .ok () := by
  induction items with
  | nil => exact iff_of_true rfl (forall_mem_nil _)
  | cons item items ih =>
    rw [forall_mem_cons, ← ih]
    exact bind_eq_ok_iff.trans ⟨fun ⟨_, hrun⟩ => hrun, fun hrun => ⟨(), hrun⟩⟩

theorem foldCountM_unit_eq_ok_iff {check : Nat → Except ε Unit} {first count : Nat} {result : Unit} :
    foldCountM (fun _ i => check i) first count () = .ok result ↔
      ∀ i < count, check (first + i) = .ok () := by
  induction count generalizing first with
  | zero => exact iff_of_true rfl fun i hi => absurd hi (Nat.not_lt_zero i)
  | succ count ih =>
    rw [Nat.forall_lt_succ_left, foldCountM, bind_eq_ok_iff]
    simp only [ih, Nat.add_zero, Nat.add_right_comm first 1, Nat.add_assoc]
    exact ⟨fun hrun => hrun.elim fun _ hchecks => hchecks, fun hrun => ⟨(), hrun⟩⟩

theorem isOk_eq_true_iff {computed : Except ε β} :
    computed.isOk = true ↔ ∃ value, computed = .ok value := by
  cases computed <;> simp [Except.isOk, Except.toBool]

/-- Computing for every item of a list gives one result per item, in order. -/
theorem mapM_eq_ok_iff {compute : β → Except ε γ} :
    items.mapM compute = .ok results ↔
      Forall₂ (fun item result => compute item = .ok result) items results := by
  induction items generalizing results with
  | nil => simp [Except.pure_eq_ok, eq_comm]
  | cons item items ih =>
    rw [mapM_cons, bind_eq_ok_iff, forall₂_cons_left_iff]
    constructor
    · rintro ⟨result, hresult, hrest⟩
      obtain ⟨others, hothers, hpure⟩ := bind_eq_ok_iff.1 hrest
      cases hpure
      exact ⟨result, others, hresult, ih.1 hothers, rfl⟩
    · rintro ⟨result, others, hresult, hothers, rfl⟩
      refine ⟨result, hresult, bind_eq_ok_iff.2 ⟨others, ih.2 hothers, rfl⟩⟩

theorem mapM_eq_some_iff {compute : β → Option γ} :
    items.mapM compute = some results ↔
      Forall₂ (fun item result => compute item = some result) items results := by
  induction items generalizing results with
  | nil => simp [eq_comm]
  | cons item items ih =>
    rw [mapM_cons, Option.bind_eq_bind, Option.bind_eq_some_iff, forall₂_cons_left_iff]
    constructor
    · rintro ⟨result, hresult, hrest⟩
      obtain ⟨others, hothers, hpure⟩ := Option.bind_eq_some_iff.1 hrest
      cases hpure
      exact ⟨result, others, hresult, ih.1 hothers, rfl⟩
    · rintro ⟨result, others, hresult, hothers, rfl⟩
      exact ⟨result, hresult, Option.bind_eq_some_iff.2 ⟨others, ih.2 hothers, rfl⟩⟩

/-- Computing for every item depends on what is computed for these items only. -/
theorem mapM_congr_mem {m : Type → Type} [Monad m] [LawfulMonad m] {compute compute' : β → m γ}
    (hsame : ∀ item ∈ items, compute item = compute' item) :
    items.mapM compute = items.mapM compute' := by
  induction items with
  | nil => rfl
  | cons item items ih =>
    rw [forall_mem_cons] at hsame
    rw [mapM_cons, mapM_cons, hsame.1, ih hsame.2]

/-- Computations that give the same list agree on every item. -/
theorem eq_of_mapM_eq_ok {compute compute' : β → Except ε γ}
    (hrun : items.mapM compute = .ok results) (hrun' : items.mapM compute' = .ok results) {item : β}
    (hmem : item ∈ items) : compute item = compute' item := by
  rw [mapM_eq_ok_iff] at hrun hrun'
  induction hrun with
  | nil => cases hmem
  | cons hfirst _ ih =>
    obtain ⟨hfirst', hrest'⟩ := forall₂_cons.1 hrun'
    rcases mem_cons.1 hmem with rfl | hmem
    · rw [hfirst, hfirst']
    · exact ih hrest' hmem

/-- A loop whose steps all give a value gives what the loop over these values gives. -/
theorem foldlM_eq_ok {step : γ → β → Except ε γ} {next : γ → β → γ}
    (hstep : ∀ item ∈ items, ∀ state, step state item = .ok (next state item)) (state : γ) :
    items.foldlM step state = .ok (items.foldl next state) := by
  induction items generalizing state with
  | nil => rfl
  | cons item items ih =>
    rw [forall_mem_cons] at hstep
    rw [foldlM_cons, hstep.1, foldl_cons, ok_bind, ih hstep.2]

/-- What every step of a counting loop keeps holds at its end. -/
theorem foldCountM_invariant {σ : Type} {step : σ → Nat → Except ε σ} (invariant : Nat → σ → Prop)
    {first count : Nat}
    (hstep : ∀ i state next, i < first + count → invariant i state → step state i = .ok next →
      invariant (i + 1) next)
    {state final : σ} (hstart : invariant first state)
    (hrun : foldCountM step first count state = .ok final) : invariant (first + count) final := by
  induction count generalizing first state with
  | zero =>
    cases hrun
    exact hstart
  | succ count ih =>
    obtain ⟨next, hnext, hrun⟩ := bind_eq_ok_iff.1 hrun
    have hfinal := ih (fun i state next hi => hstep i state next (by omega))
      (hstep first state next (by omega) hstart hnext) hrun
    rwa [Nat.add_right_comm] at hfinal

/-- A checked value can only come from a checked computation that gave it. -/
theorem Outcome.ofChecked_eq_ok_iff {computed : Checked β} :
    (Outcome.ofChecked computed : Outcome ε β) = .ok value ↔ computed = .ok value := by
  cases computed <;> simp [Outcome.ofChecked]

/-- A refusal that is made a result leaves the values that there are. -/
theorem Outcome.attempt_eq_ok_iff {computed : Outcome ε β} :
    computed.attempt = .ok (.ok value) ↔ computed = .ok value := by
  rcases computed with (cause | cause) | result <;> simp [Outcome.attempt]

/-- Widening the cause of a refusal neither makes nor loses a value. -/
theorem Outcome.widen_eq_ok_iff {wrap : ε → δ} {computed : Outcome ε β} :
    computed.widen wrap = .ok value ↔ computed = .ok value := by
  rcases computed with (cause | cause) | result <;> simp [Outcome.widen]

@[simp]
theorem liftM_checked (computed : Checked β) :
    (liftM computed : Outcome ε β) = Outcome.ofChecked computed := rfl

/-- A computation that can only fault gives its value wherever it is carried. -/
theorem Outcome.lift_eq_ok_iff {computed : Checked β} :
    (liftM computed : Outcome ε β) = .ok value ↔ computed = .ok value :=
  Outcome.ofChecked_eq_ok_iff

/-- A refused shape is a refused value. -/
theorem Outcome.liftShape_eq_ok_iff {computed : Outcome ShapeError β} :
    (liftM computed : Outcome EvalError β) = .ok value ↔ computed = .ok value :=
  Outcome.widen_eq_ok_iff

theorem Outcome.mapM_lift_eq_ok_iff {compute : β → Checked γ} :
    (items.mapM fun item => (liftM (compute item) : Outcome ε γ)) = .ok results ↔
      items.mapM compute = .ok results := by
  simp only [mapM_eq_ok_iff, Outcome.lift_eq_ok_iff]

/-- A computation gives nothing but values with a property, and under a condition it is sure to give
one. -/
structure Delivers (sure : Prop) (property : β → Prop) (computed : Except ε β) : Prop where
  post : ∀ {value}, computed = .ok value → property value
  runs : sure → ∃ value, computed = .ok value

namespace Delivers

variable {sure sure' : Prop} {property property' : β → Prop} {after : γ → Prop}

theorem ok {value : β} (hvalue : property value) :
    Delivers sure property (.ok value : Except ε β) :=
  ⟨fun heq => Except.ok.inj heq ▸ hvalue, fun _ => ⟨value, rfl⟩⟩

theorem mono {computed : Except ε β} (hdelivers : Delivers sure property computed)
    (hsure : sure' → sure) (hproperty : ∀ value, property value → property' value) :
    Delivers sure' property' computed :=
  ⟨fun heq => hproperty _ (hdelivers.post heq), fun hmet => hdelivers.runs (hsure hmet)⟩

theorem bind {first : Except ε β} {next : β → Except ε γ} (hfirst : Delivers sure property first)
    (hnext : ∀ value, property value → Delivers sure after (next value)) :
    Delivers sure after (first >>= next) := by
  constructor
  · intro result hrun
    obtain ⟨value, hvalue, hrun⟩ := bind_eq_ok_iff.1 hrun
    exact (hnext value (hfirst.post hvalue)).post hrun
  · intro hmet
    obtain ⟨value, hvalue⟩ := hfirst.runs hmet
    obtain ⟨result, hresult⟩ := (hnext value (hfirst.post hvalue)).runs hmet
    exact ⟨result, bind_eq_ok_iff.2 ⟨value, hvalue, hresult⟩⟩

end Delivers

end Except

section EStateM

variable {ε σ β γ : Type} {state final : σ} {items : List β} {step : β → EStateM ε σ PUnit}

/-- A sequence of state changes gives a value exactly when both parts do, one after the other. -/
theorem stateBind_eq_ok_iff {first : EStateM ε σ β} {next : β → EStateM ε σ γ} {result : γ} :
    (first >>= next) state = .ok result final ↔
      ∃ value middle, first state = .ok value middle ∧ next value middle = .ok result final := by
  change EStateM.bind first next state = .ok result final ↔ _
  unfold EStateM.bind
  cases first state with
  | ok value middle => simp
  | error cause middle => simp

/-- A sequence of state changes stops where its first part stops, or else where its second does. -/
theorem stateBind_eq_error_iff {first : EStateM ε σ β} {next : β → EStateM ε σ γ} {cause : ε} :
    (first >>= next) state = .error cause final ↔
      first state = .error cause final ∨
        ∃ value middle, first state = .ok value middle ∧
          next value middle = .error cause final := by
  change EStateM.bind first next state = .error cause final ↔ _
  unfold EStateM.bind
  cases first state with
  | ok value middle => simp
  | error cause middle => simp

/-- A sequence that begins by reading the state. -/
theorem stateGet_bind {next : σ → EStateM ε σ γ} : (get >>= next) state = next state state := rfl

/-- A sequence that begins by setting the state. -/
theorem stateSet_bind {next : PUnit → EStateM ε σ γ} :
    (set state >>= next) final = next ⟨⟩ state := rfl

/-- Going through a list gives a value exactly when every step does, one after the other. -/
theorem forM_cons_eq_ok_iff {item : β} :
    (item :: items).forM step state = .ok ⟨⟩ final ↔
      ∃ middle, step item state = .ok ⟨⟩ middle ∧ items.forM step middle = .ok ⟨⟩ final := by
  change (step item >>= fun _ => items.forM step) state = .ok ⟨⟩ final ↔ _
  rw [stateBind_eq_ok_iff]
  exact ⟨fun ⟨_, middle, hfirst, hrest⟩ => ⟨middle, hfirst, hrest⟩,
    fun ⟨middle, hfirst, hrest⟩ => ⟨⟨⟩, middle, hfirst, hrest⟩⟩

/-- What every step keeps, going through a list keeps. -/
theorem forM_invariant {property : σ → Prop}
    (hstep : ∀ {item state final}, property state → step item state = .ok ⟨⟩ final →
      property final)
    {items : List β} {state final : σ} (hbefore : property state)
    (hrun : items.forM step state = .ok ⟨⟩ final) : property final := by
  induction items generalizing state with
  | nil =>
    cases hrun
    exact hbefore
  | cons item items ih =>
    obtain ⟨middle, hfirst, hrest⟩ := forM_cons_eq_ok_iff.1 hrun
    exact ih (hstep hbefore hfirst) hrest

/-- A change leaves a good state, or it stops for a cause of a certain kind. -/
def Concludes (good : σ → Prop) (cause : ε → Prop) : EStateM.Result ε σ β → Prop
  | .ok _ state => good state
  | .error stop _ => cause stop

/-- Going through a list concludes as each of its steps does. -/
theorem forM_concludes {good : σ → Prop} {cause : ε → Prop}
    (hstep : ∀ item ∈ items, ∀ state, good state → Concludes good cause (step item state))
    (hgood : good state) : Concludes good cause (items.forM step state) := by
  induction items generalizing state with
  | nil => exact hgood
  | cons item items ih =>
    rw [forall_mem_cons] at hstep
    have hfirst := hstep.1 state hgood
    change Concludes good cause (EStateM.bind (step item) (fun _ => items.forM step) state)
    unfold EStateM.bind
    cases hrun : step item state with
    | ok value middle =>
      rw [hrun] at hfirst
      exact ih hstep.2 hfirst
    | error stop middle =>
      rw [hrun] at hfirst
      exact hfirst

/-- What every step keeps, a loop that passes a value on keeps. -/
theorem foldlM_invariant {motive : γ → σ → Prop} {step : γ → β → EStateM ε σ γ}
    (hstep : ∀ {item value state next final}, item ∈ items → motive value state →
      step value item state = .ok next final → motive next final) {value result : γ}
    (hbefore : motive value state) (hrun : items.foldlM step value state = .ok result final) :
    motive result final := by
  induction items generalizing value state with
  | nil =>
    cases hrun
    exact hbefore
  | cons item items ih =>
    rw [foldlM_cons] at hrun
    obtain ⟨next, middle, hfirst, hrest⟩ := stateBind_eq_ok_iff.1 hrun
    exact ih (fun hmem => hstep (mem_cons_of_mem _ hmem))
      (hstep mem_cons_self hbefore hfirst) hrest

/-- A loop comes to an end if every step does and keeps what the next one needs. -/
theorem foldlM_returns {motive : σ → Prop} {step : γ → β → EStateM ε σ γ}
    (hstep : ∀ {item value state}, item ∈ items → motive state →
      ∃ next final, step value item state = .ok next final ∧ motive final)
    (value : γ) (hbefore : motive state) :
    ∃ result final, items.foldlM step value state = .ok result final ∧ motive final := by
  induction items generalizing value state with
  | nil => exact ⟨value, state, rfl, hbefore⟩
  | cons item items ih =>
    obtain ⟨next, middle, hfirst, hmiddle⟩ := hstep mem_cons_self hbefore
    obtain ⟨result, final, hrest, hfinal⟩ := ih (fun hmem => hstep (mem_cons_of_mem _ hmem)) next hmiddle
    refine ⟨result, final, ?_, hfinal⟩
    rw [foldlM_cons]
    exact stateBind_eq_ok_iff.2 ⟨next, middle, hfirst, hrest⟩

end EStateM

namespace Change

variable {ε α β γ : Type} {g h : Graph α} {value : β} {next : β → Change ε α γ} {result : γ}

/-- A result that does not depend on the graph leaves the graph alone. -/
theorem lift_eq_ok_iff {computed : Outcome ε β} :
    (liftM computed : Change ε α β) g = .ok value h ↔ computed = .ok value ∧ h = g := by
  change Change.ofOutcome computed g = .ok value h ↔ _
  cases computed <;> simp [Change.ofOutcome, eq_comm]

/-- A sequence that starts with a result that does not depend on the graph. -/
theorem lift_bind_concludes {computed : Outcome ε β}
    {good : Graph α → Prop} {cause : Stop ε → Prop} (hstop : ∀ stop, computed = .error stop → cause stop)
    (hnext : ∀ value, computed = .ok value → Concludes good cause (next value g)) :
    Concludes good cause (((liftM computed : Change ε α β) >>= next) g) := by
  cases computed with
  | ok value => exact hnext value rfl
  | error stop => exact hstop stop rfl

theorem liftChecked_eq_ok_iff {computed : Checked β} :
    (liftM computed : Change ε α β) g = .ok value h ↔ computed = .ok value ∧ h = g := by
  change Change.ofOutcome (Outcome.ofChecked computed) g = .ok value h ↔ _
  cases computed <;> simp [Change.ofOutcome, Outcome.ofChecked, eq_comm]

theorem lift_bind_eq_ok_iff {computed : Outcome ε β} :
    ((liftM computed : Change ε α β) >>= next) g = .ok result h ↔
      ∃ value, computed = .ok value ∧ next value g = .ok result h := by
  simp only [stateBind_eq_ok_iff, lift_eq_ok_iff, and_assoc, exists_and_left, exists_eq_left]

theorem liftChecked_bind_eq_ok_iff {computed : Checked β} :
    ((liftM computed : Change ε α β) >>= next) g = .ok result h ↔
      ∃ value, computed = .ok value ∧ next value g = .ok result h := by
  simp only [stateBind_eq_ok_iff, liftChecked_eq_ok_iff, and_assoc, exists_and_left, exists_eq_left]

theorem widen_eq_ok_iff {δ : Type} {wrap : ε → δ} {change : Change ε α β} :
    change.widen wrap g = .ok value h ↔ change g = .ok value h := by
  unfold Change.widen
  rcases change g with ⟨result, k⟩ | ⟨cause | cause, k⟩ <;> simp

end Change

end TensorGraph
