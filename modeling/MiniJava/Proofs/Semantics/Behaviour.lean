import MiniJava.Proofs.Semantics.World

/-!
Runs of machines, what can be seen of them, and when two runs are the same to an observer: they end
alike in the same world, or neither ends and whatever one does the other does as well.
-/

namespace MiniJava.Semantics

/-- The world that is left behind, by a stop too. Statements about what was recorded speak of this
world. -/
def worldAfter {α : Type} : EStateM.Result Stop World α → World
  | .ok _ w | .error _ w => w

/-- The record before is the beginning of the record after, in every world and whether or not the action
stops. -/
def Grows {α : Type} (x : Act α) : Prop := ∀ w, w.trace <+: (worldAfter (x.run w)).trace

namespace Grows

variable {α β : Type}

theorem pure (a : α) : Grows (Pure.pure a : Act α) := fun w => List.prefix_refl w.trace

theorem throw (stop : Stop) : Grows (MonadExcept.throw stop : Act α) :=
  fun w => List.prefix_refl w.trace

/-- The record grows along a sequence of actions, whatever the first of them answers, and also if it
stops. -/
theorem bind {x : Act α} {f : α → Act β} (hx : Grows x) (hf : ∀ a, Grows (f a)) :
    Grows (x >>= f) := by
  intro w
  have hFirst := hx w
  rw [EStateM.run_bind]
  cases hRun : x.run w with
  | ok a w' =>
      rw [hRun] at hFirst
      exact hFirst.trans (hf a w')
  | error stop w' =>
      rw [hRun] at hFirst
      exact hFirst

theorem ite {p : Prop} [Decidable p] {x y : Act α} (hx : Grows x) (hy : Grows y) :
    Grows (if p then x else y) := by
  by_cases h : p
  · rwa [if_pos h]
  · rwa [if_neg h]

/-- A change of the world that leaves the record as it is. -/
theorem modifyGet {f : World → α × World} (h : ∀ w, (f w).2.trace = w.trace) :
    Grows (MonadStateOf.modifyGet f : Act α) := by
  intro w
  show w.trace <+: (f w).2.trace
  exact ⟨[], by rw [List.append_nil, h w]⟩

theorem get : Grows (MonadState.get : Act World) := fun w => List.prefix_refl w.trace

end Grows

theorem grows_record (event : Event) : Grows (record event) :=
  fun w => List.prefix_append w.trace [event]

theorem grows_toInt (v : Value) : Grows (toInt v) := by
  cases v with
  | int n => exact .pure n
  | ref address => exact .throw .stuck

theorem grows_toAddress (v : Value) : Grows (toAddress v) := by
  cases v with
  | int n => exact .throw .stuck
  | ref address =>
      cases address with
      | none => exact .throw .nullReference
      | some address => exact .pure address

theorem grows_truth (v : Value) : Grows (truth v) := (grows_toInt v).bind fun _ => .pure _

theorem grows_negate (v : Value) : Grows (negate v) := (grows_truth v).bind fun _ => .pure _

theorem grows_checked (shape : Shape) (v : Value) : Grows (checked shape v) :=
  .ite (.pure v) (.throw .stuck)

theorem grows_divide (a b : Int32) : Grows (divide a b) := .ite (.throw .divisionByZero) (.pure _)

theorem grows_cellAt (address : Nat) : Grows (cellAt address) := by
  refine Grows.get.bind fun w => ?_
  split
  · exact .pure _
  · exact .throw .stuck

/-- Replacing a cell is no event by itself. The event of a write is recorded in a step of its own. -/
theorem grows_putCell (address : Nat) (cell : Cell) : Grows (putCell address cell) :=
  .modifyGet fun _ => rfl

theorem grows_allocate (cell : Cell) : Grows (allocate cell) := .modifyGet fun _ => rfl

theorem grows_newObject (className : String) : Grows (newObject className) := grows_allocate _

theorem grows_newArray (shape : Shape) (size : Int32) : Grows (newArray shape size) :=
  .ite (.throw .negativeSize) (grows_allocate _)

theorem grows_newIntArray (size : Value) : Grows (newIntArray size) :=
  (grows_toInt size).bind fun _ => grows_newArray .int _

theorem grows_objectAt (address : Nat) : Grows (objectAt address) := by
  refine (grows_cellAt address).bind fun cell => ?_
  cases cell with
  | object className fields => exact .pure _
  | array shape items => exact .throw .stuck

theorem grows_arrayAt (address : Nat) (shape : Shape) : Grows (arrayAt address shape) := by
  refine (grows_cellAt address).bind fun cell => ?_
  cases cell with
  | object className fields => exact .throw .stuck
  | array found items => exact .ite (.pure items) (.throw .stuck)

theorem grows_readField (object : Value) (field : String) (shape : Shape) :
    Grows (readField object field shape) :=
  (grows_toAddress object).bind fun address =>
    (grows_objectAt address).bind fun _ => grows_checked shape _

/-- A write to a field keeps the record that there was, and its event comes at the end. -/
theorem grows_writeField (object : Value) (field : String) (shape : Shape) (v : Value) :
    Grows (writeField object field shape v) :=
  (grows_toAddress object).bind fun address =>
    (grows_objectAt address).bind fun _ =>
      (grows_checked shape v).bind fun _ =>
        (grows_putCell address _).bind fun _ => grows_record _

theorem grows_placeIn (items : List Value) (place : Int32) : Grows (placeIn items place) :=
  .ite (.pure _) (.throw .outOfBounds)

theorem grows_readItem (array place : Value) (shape : Shape) : Grows (readItem array place shape) :=
  (grows_toInt place).bind fun place =>
    (grows_toAddress array).bind fun address =>
      (grows_arrayAt address shape).bind fun items =>
        (grows_placeIn items place).bind fun _ => grows_checked shape _

/-- A write to an item keeps the record that there was, and its event comes at the end. -/
theorem grows_writeItem (array place : Value) (shape : Shape) (v : Value) :
    Grows (writeItem array place shape v) :=
  (grows_toInt place).bind fun place =>
    (grows_toAddress array).bind fun address =>
      (grows_arrayAt address shape).bind fun items =>
        (grows_placeIn items place).bind fun _ =>
          (grows_checked shape v).bind fun _ =>
            (grows_putCell address _).bind fun _ => grows_record _

theorem grows_arrayLength (array : Value) : Grows (arrayLength array) := by
  refine (grows_toAddress array).bind fun address => (grows_cellAt address).bind fun cell => ?_
  cases cell with
  | object className fields => exact .throw .stuck
  | array shape items => exact .pure _

/-- A call is recorded, and what the host does to the heap leaves the record as it is. The host cannot
take anything back. -/
theorem grows_perform (setting : Setting) (call : Call) : Grows (perform setting call) := by
  refine (grows_record _).bind fun _ => Grows.get.bind fun w => ?_
  split
  · exact .throw .noReturn
  · refine (Grows.modifyGet fun _ => rfl).bind fun _ => ?_
    split
    · exact .pure _
    · exact grows_checked _ _

theorem grows_callStatic (setting : Setting) (className method : String) (arguments : List Value)
    (result : Option Shape) : Grows (callStatic setting className method arguments result) :=
  grows_perform setting _

theorem grows_callVirtual (setting : Setting) (receiver : Value) (method : String)
    (arguments : List Value) (result : Option Shape) :
    Grows (callVirtual setting receiver method arguments result) :=
  (grows_toAddress receiver).bind fun _ => grows_perform setting _

theorem grows_callSpecial (setting : Setting) (receiver : Value) (method : String)
    (arguments : List Value) (result : Option Shape) :
    Grows (callSpecial setting receiver method arguments result) :=
  (grows_toAddress receiver).bind fun _ => grows_perform setting _

/-- What one step of a machine leads to: another state of it, or the end of the run with what the method
gives back. -/
inductive Next (σ : Type) where
  | goOn (state : σ)
  | finish (value : Option Value)
deriving Inhabited

/-- What is known of a run after some time: that it goes on, or what it gave back. A stop is no outcome,
since it is known of the action itself. -/
inductive Outcome where
  | running
  | returned (value : Option Value)
deriving DecidableEq, Repr, Inhabited

section

variable {σ : Type} (step : σ → Act (Next σ))

/-- The first steps of a machine. A run that ends before its time gives its result; one that does not is
known to be running, and its world is the one that it has reached. -/
def runFor : Nat → σ → Act Outcome
  | 0, _ => return .running
  | n + 1, s => do
      match ← step s with
      | .goOn s => runFor n s
      | .finish v => return .returned v

/-- A number of steps, from one state and world to another. None of them ends the run. -/
inductive Reaches : Nat → σ → World → σ → World → Prop where
  | zero (s : σ) (w : World) : Reaches 0 s w s w
  | succ {n : Nat} {s t u : σ} {w v x : World} (first : (step s).run w = .ok (.goOn t) v)
      (rest : Reaches n t v u x) : Reaches (n + 1) s w u x

/-- A run that ends, with a result or with a stop. The number of its steps is left out, since it is of no
account once the end is known. -/
inductive Ends : σ → World → EStateM.Result Stop World (Option Value) → Prop where
  | returned {s : σ} {w w' : World} {v : Option Value}
      (last : (step s).run w = .ok (.finish v) w') : Ends s w (.ok v w')
  | stopped {s : σ} {w w' : World} {stop : Stop}
      (last : (step s).run w = .error stop w') : Ends s w (.error stop w')
  | succ {s t : σ} {w v : World} {r : EStateM.Result Stop World (Option Value)}
      (first : (step s).run w = .ok (.goOn t) v) (rest : Ends t v r) : Ends s w r

/-- What a run that ends is known to do, once there was time enough. The world is that at its end. -/
def outcomeOf : EStateM.Result Stop World (Option Value) → EStateM.Result Stop World Outcome
  | .ok v w => .ok (.returned v) w
  | .error stop w => .error stop w

/-- Whether a run that was looked at for some time has ended, by a result or by a stop. A run that is
finished shows the same at all later times. -/
def IsFinished : EStateM.Result Stop World Outcome → Prop
  | .ok .running _ => False
  | .ok (.returned _) _ | .error _ _ => True

end

section

variable {σ : Type} {step : σ → Act (Next σ)} {s t u : σ} {w v x : World} {n m : Nat}

theorem Reaches.single (h : (step s).run w = .ok (.goOn t) v) : Reaches step 1 s w t v :=
  .succ h (.zero t v)

theorem Reaches.trans (h₁ : Reaches step n s w t v) (h₂ : Reaches step m t v u x) :
    Reaches step (n + m) s w u x := by
  induction h₁ with
  | zero s w => rwa [Nat.zero_add]
  | @succ k _ _ _ _ _ _ hFirst _ ih =>
      rw [show k + 1 + m = k + m + 1 by omega]
      exact .succ hFirst (ih h₂)

theorem Reaches.ends {r : EStateM.Result Stop World (Option Value)}
    (h : Reaches step n s w t v) (hEnd : Ends step t v r) : Ends step s w r := by
  induction h with
  | zero s w => exact hEnd
  | succ hFirst _ ih => exact .succ hFirst (ih hEnd)

/-- With one more step to go, a step that goes on is followed by the steps that are left. -/
theorem runFor_succ_goOn (h : (step s).run w = .ok (.goOn t) v) (n : Nat) :
    (runFor step (n + 1) s).run w = (runFor step n t).run v := by
  rw [runFor, EStateM.run_bind, h]

theorem runFor_succ_finish {value : Option Value} (h : (step s).run w = .ok (.finish value) v)
    (n : Nat) : (runFor step (n + 1) s).run w = .ok (.returned value) v := by
  rw [runFor, EStateM.run_bind, h]
  rfl

theorem runFor_succ_error {stop : Stop} (h : (step s).run w = .error stop v) (n : Nat) :
    (runFor step (n + 1) s).run w = .error stop v := by
  rw [runFor, EStateM.run_bind, h]

/-- A run that is looked at for just the steps that it goes on is still running, in the world that it has
reached. -/
theorem Reaches.runFor_eq (h : Reaches step n s w t v) :
    (runFor step n s).run w = .ok .running v := by
  induction h with
  | zero s w => rfl
  | succ hFirst _ ih => rw [runFor_succ_goOn hFirst, ih]

theorem Ends.runFor_eq {r : EStateM.Result Stop World (Option Value)} (h : Ends step s w r) :
    ∃ n, (runFor step n s).run w = outcomeOf r := by
  induction h with
  | returned hLast => exact ⟨1, runFor_succ_finish hLast 0⟩
  | stopped hLast => exact ⟨1, runFor_succ_error hLast 0⟩
  | succ hFirst _ ih =>
      obtain ⟨n, hRun⟩ := ih
      exact ⟨n + 1, by rw [runFor_succ_goOn hFirst, hRun]⟩

/-- A run that has ended does nothing more, so looking at it for longer shows the same end and the same
world. -/
theorem runFor_stable (hFinished : IsFinished ((runFor step n s).run w)) (hLe : n ≤ m) :
    (runFor step m s).run w = (runFor step n s).run w := by
  induction n generalizing m s w with
  | zero => exact hFinished.elim
  | succ n ih =>
      obtain ⟨m, rfl⟩ : ∃ k, m = k + 1 := ⟨m - 1, by omega⟩
      cases hStep : (step s).run w with
      | ok next v =>
          cases next with
          | goOn t =>
              rw [runFor_succ_goOn hStep] at hFinished ⊢
              rw [runFor_succ_goOn hStep]
              exact ih hFinished (by omega)
          | finish value => rw [runFor_succ_finish hStep, runFor_succ_finish hStep]
      | error stop v => rw [runFor_succ_error hStep, runFor_succ_error hStep]

/-- A run that ends is seen to end also if it is looked at for longer than any given time. -/
theorem Ends.runFor_ge {r : EStateM.Result Stop World (Option Value)} (h : Ends step s w r)
    (least : Nat) : ∃ n, least ≤ n ∧ (runFor step n s).run w = outcomeOf r := by
  obtain ⟨n, hRun⟩ := h.runFor_eq
  have hFinished : IsFinished ((runFor step n s).run w) := by
    rw [hRun]
    cases r <;> trivial
  refine ⟨max least n, Nat.le_max_left least n, ?_⟩
  rw [runFor_stable hFinished (Nat.le_max_right least n), hRun]

/-- If the record grows with every step, it grows with any number of steps, however the run ends. -/
theorem grows_runFor (hGrows : ∀ s, Grows (step s)) (n : Nat) (s : σ) : Grows (runFor step n s) := by
  induction n generalizing s with
  | zero => exact .pure Outcome.running
  | succ n ih =>
      refine (hGrows s).bind fun next => ?_
      cases next with
      | goOn t => exact ih t
      | finish value => exact .pure _

/-- What was done in less time is the beginning of what is done in more. So an observer never has to take
back what was seen. -/
theorem runFor_trace (hGrows : ∀ s, Grows (step s)) (hLe : n ≤ m) :
    (worldAfter ((runFor step n s).run w)).trace <+: (worldAfter ((runFor step m s).run w)).trace := by
  induction n generalizing m s w with
  | zero => exact grows_runFor hGrows m s w
  | succ n ih =>
      obtain ⟨m, rfl⟩ : ∃ k, m = k + 1 := ⟨m - 1, by omega⟩
      cases hStep : (step s).run w with
      | ok next v =>
          cases next with
          | goOn t =>
              rw [runFor_succ_goOn hStep, runFor_succ_goOn hStep]
              exact ih (by omega)
          | finish value => simp only [runFor_succ_finish hStep, List.prefix_refl]
      | error stop v => simp only [runFor_succ_error hStep, List.prefix_refl]

end

section

variable {σ α β : Type} {step : σ → Act (Next σ)} {s t : σ} {w v : World} {n : Nat}

/-- A sequence whose first action answers goes on with that answer in the world that it leaves. -/
theorem run_bind_of_ok {x : Act α} {a : α} (h : x.run w = .ok a v) (f : α → Act β) :
    (x >>= f).run w = (f a).run v := by
  rw [EStateM.run_bind, h]

theorem run_bind_of_error {x : Act α} {stop : Stop} (h : x.run w = .error stop v)
    (f : α → Act β) : (x >>= f).run w = .error stop v := by
  rw [EStateM.run_bind, h]

theorem run_bind_congr {x y : Act α} (h : x.run w = y.run v) (f : α → Act β) :
    (x >>= f).run w = (y >>= f).run v := by
  rw [EStateM.run_bind, EStateM.run_bind, h]

/-- The machine comes to a state of which `Q` holds, unless the action with the result `r` stops:
then the machine may stop in the same way. -/
def Comes (step : σ → Act (Next σ)) (s : σ) (w : World) (r : EStateM.Result Stop World α)
    (Q : σ → World → Prop) : Prop :=
  (∃ n t v, Reaches step n s w t v ∧ Q t v) ∨
    ∃ stop v, r = .error stop v ∧ Ends step s w (.error stop v)

variable {r : EStateM.Result Stop World α} {Q Q' : σ → World → Prop}

theorem Comes.here (h : Q s w) : Comes step s w r Q := .inl ⟨0, s, w, .zero s w, h⟩

theorem Comes.after (hReach : Reaches step n s w t v) (h : Comes step t v r Q) :
    Comes step s w r Q := by
  rcases h with ⟨m, u, x, hLater, hQ⟩ | ⟨stop, x, hr, hEnd⟩
  · exact .inl ⟨n + m, u, x, hReach.trans hLater, hQ⟩
  · exact .inr ⟨stop, x, hr, hReach.ends hEnd⟩

theorem Comes.mono (h : Comes step s w r Q) (hQ : ∀ t v, Q t v → Q' t v) : Comes step s w r Q' := by
  rcases h with ⟨n, t, v, hReach, hThere⟩ | hStop
  · exact .inl ⟨n, t, v, hReach, hQ t v hThere⟩
  · exact .inr hStop

/-- The machine comes to a first state and from there to a second one, unless the action stops it in
between. -/
theorem Comes.thenGo (h : Comes step s w r Q) (hQ : ∀ t v, Q t v → Comes step t v r Q') :
    Comes step s w r Q' := by
  rcases h with ⟨n, t, v, hReach, hThere⟩ | hStop
  · exact .after hReach (hQ t v hThere)
  · exact .inr hStop

/-- What follows an action does not matter where the action stops, and is come to where it does not. -/
theorem Comes.before {x : Act α} (h : Comes step s w (x.run w) Q) (f : α → Act β) :
    Comes step s w ((x >>= f).run w) Q := by
  rcases h with hThere | ⟨stop, v, hRun, hEnd⟩
  · exact .inl hThere
  · exact .inr ⟨stop, v, run_bind_of_error hRun f, hEnd⟩

/-- A step that does an action and then goes on. -/
theorem Comes.ofStep {x : Act α} {f : α → σ}
    (h : step s = x >>= fun a => Pure.pure (.goOn (f a))) :
    Comes step s w (x.run w) fun t v => ∃ a, x.run w = .ok a v ∧ t = f a := by
  cases hRun : x.run w with
  | ok a v =>
      have hStep : (step s).run w = .ok (.goOn (f a)) v := by
        rw [h]
        exact run_bind_of_ok hRun _
      exact .inl ⟨1, f a, v, .single hStep, a, rfl, rfl⟩
  | error stop v =>
      have hStep : (step s).run w = .error stop v := by
        rw [h]
        exact run_bind_of_error hRun _
      exact .inr ⟨stop, v, rfl, .stopped hStep⟩

/-- After the machine has gone along with an action, it goes along with what follows, for whatever answer
the action gave. -/
theorem Comes.andThen {x : Act α} {f : α → Act β} {P : α → σ → World → Prop}
    {Q : EStateM.Result Stop World β → σ → World → Prop}
    (h : Comes step s w (x.run w) fun t v => ∃ a, x.run w = .ok a v ∧ P a t v)
    (hf : ∀ a t v, P a t v → Comes step t v ((f a).run v) (Q ((f a).run v))) :
    Comes step s w ((x >>= f).run w) (Q ((x >>= f).run w)) := by
  rcases h with ⟨n, t, v, hReach, a, hRun, hP⟩ | ⟨stop, v, hRun, hEnd⟩
  · rw [run_bind_of_ok hRun f]
    exact .after hReach (hf a t v hP)
  · exact .inr ⟨stop, v, run_bind_of_error hRun f, hEnd⟩

end

/-- Everything that `f` is seen to do in some time, `g` does in some time: how it ends, with what
value and in which world, and whatever it records while it goes on. -/
structure Covers (w : World) (f g : Nat → Act Outcome) : Prop where
  ends : ∀ n, IsFinished ((f n).run w) → ∃ m, (g m).run w = (f n).run w
  goesOn : ∀ n w', (f n).run w = .ok .running w' →
    ∃ m, w'.trace <+: (worldAfter ((g m).run w)).trace

/-- Two runs that an observer cannot tell apart, from one world. Each shows, given time enough, whatever
the other has shown. -/
structure SameBehaviour (w : World) (f g : Nat → Act Outcome) : Prop where
  forth : Covers w f g
  back : Covers w g f

section

variable {σ : Type} {step : σ → Act (Next σ)} {s : σ} {w : World}

/-- A machine goes along with what some run is known to have done after `n` rounds: it ends alike,
or has come in at least as many steps to a state with the same world. -/
def Matches (step : σ → Act (Next σ)) (s : σ) (w : World) (n : Nat) :
    EStateM.Result Stop World Outcome → Prop
  | .ok .running w' => ∃ m t, n ≤ m ∧ Reaches step m s w t w'
  | .ok (.returned v) w' => Ends step s w (.ok v w')
  | .error stop w' => Ends step s w (.error stop w')

/-- Since a machine can only do one thing, it is enough that it goes along with a run: whatever it
does, the run then does too. -/
theorem SameBehaviour.of_matches (hGrows : ∀ s, Grows (step s)) {f : Nat → Act Outcome}
    (hMatches : ∀ n, Matches step s w n ((f n).run w)) :
    SameBehaviour w f (fun n => runFor step n s) := by
  have hLater : ∀ n, ∃ m, n ≤ m ∧ (runFor step m s).run w = (f n).run w := by
    intro n
    have hMatch := hMatches n
    cases hRun : (f n).run w with
    | error stop w' =>
        rw [hRun] at hMatch
        exact Ends.runFor_ge hMatch n
    | ok outcome w' =>
        rw [hRun] at hMatch
        cases outcome with
        | returned v => exact Ends.runFor_ge hMatch n
        | running =>
            obtain ⟨m, t, hLe, hReach⟩ := hMatch
            exact ⟨m, hLe, hReach.runFor_eq⟩
  refine ⟨⟨?_, ?_⟩, ⟨?_, ?_⟩⟩
  · intro n _
    obtain ⟨m, -, hMachine⟩ := hLater n
    exact ⟨m, hMachine⟩
  · intro n w' hRun
    obtain ⟨m, -, hMachine⟩ := hLater n
    exact ⟨m, [], by rw [List.append_nil, hMachine, hRun]; rfl⟩
  · intro n hFinished
    obtain ⟨m, hLe, hMachine⟩ := hLater n
    exact ⟨n, by rw [← hMachine, runFor_stable hFinished hLe]⟩
  · intro n w' hRun
    obtain ⟨m, hLe, hMachine⟩ := hLater n
    have hTrace := runFor_trace hGrows (s := s) (w := w) hLe
    rw [hRun, hMachine] at hTrace
    exact ⟨n, hTrace⟩

end

section

variable {σ τ : Type} {step : σ → Act (Next σ)} {Relates : τ → σ → Prop} {s t : σ} {w v : World}

/-- What a machine does for one step of another one, with the result `r`: one or more steps to a state
that is related to the next state of the other one, or to the same end. -/
def Imitates (step : σ → Act (Next σ)) (Relates : τ → σ → Prop) (s : σ) (w : World) :
    EStateM.Result Stop World (Next τ) → Prop
  | .ok (.goOn s') w' => ∃ n t, 0 < n ∧ Reaches step n s w t w' ∧ Relates s' t
  | .ok (.finish v) w' => Ends step s w (.ok v w')
  | .error stop w' => Ends step s w (.error stop w')

namespace Imitates

theorem single {s' : τ} (hStep : (step s).run w = .ok (.goOn t) v) (hRelates : Relates s' t) :
    Imitates step Relates s w (.ok (.goOn s') v) := ⟨1, t, Nat.one_pos, .single hStep, hRelates⟩

theorem after {n : Nat} {r : EStateM.Result Stop World (Next τ)} (hReach : Reaches step n s w t v)
    (h : Imitates step Relates t v r) : Imitates step Relates s w r := by
  match r with
  | .ok (.goOn s') w' =>
      obtain ⟨m, u, hPos, hLater, hRelates⟩ := h
      exact ⟨n + m, u, by omega, hReach.trans hLater, hRelates⟩
  | .ok (.finish value) w' => exact hReach.ends h
  | .error stop w' => exact hReach.ends h

/-- After the machine has gone along with an action, it imitates what follows, for whatever answer the
action gave. -/
theorem andThen {α : Type} {x : Act α} {f : α → Act (Next τ)} {P : α → σ → World → Prop}
    (h : Comes step s w (x.run w) fun t v => ∃ a, x.run w = .ok a v ∧ P a t v)
    (hf : ∀ a t v, P a t v → Imitates step Relates t v ((f a).run v)) :
    Imitates step Relates s w ((x >>= f).run w) := by
  rcases h with ⟨n, t, v, hReach, a, hRun, hP⟩ | ⟨stop, v, hRun, hEnd⟩
  · rw [run_bind_of_ok hRun f]
    exact .after hReach (hf a t v hP)
  · rw [run_bind_of_error hRun f]
    exact hEnd

/-- A machine that goes along with an action and comes somewhere else imitates a step that is that
action. -/
theorem ofComes {α : Type} {x : Act α} {f : α → τ}
    (h : Comes step s w (x.run w) fun t v => ∃ a, x.run w = .ok a v ∧ (Relates (f a) t ∧ t ≠ s)) :
    Imitates step Relates s w ((x >>= fun a => pure (.goOn (f a))).run w) := by
  rcases h with ⟨n, t, v, hReach, a, hRun, hRelates, hElsewhere⟩ | ⟨stop, v, hRun, hEnd⟩
  · rw [run_bind_of_ok hRun]
    refine ⟨n, t, ?_, hReach, hRelates⟩
    cases hReach with
    | zero => exact (hElsewhere rfl).elim
    | succ => exact Nat.succ_pos _
  · rw [run_bind_of_error hRun]
    exact hEnd

end Imitates

end

/-- A machine that imitates every step of another one goes along with it, for any number of steps of the
other. -/
theorem matches_of_imitation {σ τ : Type} {step : σ → Act (Next σ)} {step' : τ → Act (Next τ)}
    {Relates : σ → τ → Prop}
    (hStep : ∀ s t w, Relates s t → Imitates step' Relates t w ((step s).run w))
    (n : Nat) {s : σ} {t : τ} (w : World) (hRelates : Relates s t) :
    Matches step' t w n ((runFor step n s).run w) := by
  induction n generalizing s t w with
  | zero => exact ⟨0, t, Nat.le_refl 0, .zero t w⟩
  | succ n ih =>
      have hFirst := hStep s t w hRelates
      cases hRun : (step s).run w with
      | error stop w' =>
          rw [hRun] at hFirst
          rwa [runFor_succ_error hRun]
      | ok next w' =>
          rw [hRun] at hFirst
          cases next with
          | finish v => rwa [runFor_succ_finish hRun]
          | goOn s' =>
              obtain ⟨k, t', hPos, hReach, hRelates'⟩ := hFirst
              rw [runFor_succ_goOn hRun]
              have hRest := ih w' hRelates'
              cases hRestRun : (runFor step n s').run w' with
              | error stop v =>
                  rw [hRestRun] at hRest
                  exact hReach.ends hRest
              | ok outcome v =>
                  rw [hRestRun] at hRest
                  cases outcome with
                  | returned value => exact hReach.ends hRest
                  | running =>
                      obtain ⟨m, t'', hLe, hReach'⟩ := hRest
                      exact ⟨k + m, t'', by omega, hReach.trans hReach'⟩

end MiniJava.Semantics
