import MiniJava.Proofs.Assembly.Moves

/-! Depths in the code of a method. An instruction leaves the stack as empty as it was, a new object
apart, which waits on the stack for the constructor call that follows. -/

namespace MiniJava.Assembly

open Code (Complete Method Operand Label)
open Lowering (allocation construction newObjectCode_eq)
open Stack (Flow Flows Moves)

section Selection

variable {site : Site} {p p' : Progress} {code : List Stack.Instr} {atLabel : String → Nat}
  {depth : Nat}

/-- A plain instruction finds the stack empty and leaves it so. Inside its code the stack may grow, and
comparisons in it have their labels at greater depths. -/
theorem moves_instr {i : Code.Instr} (hPending : p.pending = []) (hPlain : i.isPlain = true)
    (h : (site.instr i).run p = .ok (code, p')) :
    p'.pending = [] ∧ ∃ base, ∀ atLabel, ComparisonsAt atLabel base p.comparisons p'.comparisons →
      (∀ l : Label, atLabel l.text = 0) → Moves atLabel 0 0 code := by
  have hAllocates : i.allocates? = none := Code.Instr.allocates?_of_isPlain hPlain
  refine ⟨List.eq_nil_iff_forall_not_mem.mpr fun name hName => ?_, ?_⟩
  · rw [mem_pending_instr h, hAllocates, hPending] at hName
    simp at hName
  · cases hLabel : i.label? with
    | some l =>
        cases i <;> cases hLabel
        obtain ⟨rfl, -⟩ := Site.instr_label_run.mp h
        exact ⟨0, fun atLabel _ hText => .label (hText l)⟩
    | none =>
        obtain ⟨base, hMoves⟩ := moves_selected 0 hLabel h
        rw [takes_of_pending_nil hPending, hAllocates] at hMoves
        exact ⟨base, fun atLabel hLabels hText => hMoves atLabel hLabels fun l _ => hText l⟩

/-- The allocation leaves the object on the stack, where it waits, besides the copy that goes to the
slot. -/
theorem allocation_run {name className : String} (hPending : p.pending = [])
    (h : (site.instr (allocation name className)).run p = .ok (code, p')) :
    p' = { p with pending := [name] } ∧ ∃ slot instanceClass,
      site.slot name = .ok slot ∧ site.scope.classOf (.classRef className) = .ok instanceClass ∧
      code = [.new instanceClass, .dup, Stack.storeSlot .reference slot] := by
  rw [allocation, Site.instr_assign] at h
  have hNew : Site.allocated? (.call .new (.classRef className) none [] (.object className)) =
      some (.classRef className) := rfl
  obtain ⟨slot, instanceClass, hSlot, hClass, hCode, rfl⟩ :=
    (Site.assign_newObject_run hNew).mp h
  exact ⟨by simp [hPending], slot, instanceClass, hSlot, hClass, hCode⟩

/-- The constructor call takes the object that waits, so its code pushes no receiver. -/
theorem construction_run {name className : String} (hPending : p.pending = [name])
    (h : (site.instr (construction name className)).run p = .ok (code, p')) :
    p' = { p with pending := [] } ∧ ∃ instanceClass,
      site.scope.classOf (.classRef className) = .ok instanceClass ∧
      code = [.invoke .special ⟨instanceClass, "<init>", [], "V"⟩] := by
  obtain ⟨_, pushes, hCall, rfl⟩ := Site.callStatement_run.mp h
  obtain ⟨_, instanceClass, _, ⟨⟩, hReceiver, hCode⟩ := Site.call_invokeSpecial_run.mp hCall
  obtain ⟨_, hArguments, rfl, rfl⟩ := Site.invocation_ok.mp hCode
  rw [Site.loadAll_nil_ok] at hArguments
  subst hArguments
  rw [methodRef_nil]
  rcases Site.specialReceiver_run.mp hReceiver with ⟨_, _, ⟨⟩, _, hClass, rfl, rfl⟩ |
    ⟨_, _, ⟨⟩, hWaits, _⟩ | ⟨_, ⟨⟩, _⟩ | ⟨hNot, _⟩
  · exact ⟨by simp [hPending], instanceClass, hClass, rfl⟩
  · simp [hPending] at hWaits
  · exact (hNot _ _ rfl).elim

/-- Making an object, doubling the reference and storing one of the two leaves the other on the stack, so
that the allocation ends one deeper than it began. -/
theorem flows_allocation {instanceClass : String} {slot : UInt16} {f : Flow} (hDepth : f.depth = 0) :
    Flows atLabel f [.new instanceClass, .dup, Stack.storeSlot .reference slot]
      ⟨1, true, f.met⟩ := by
  have hStore : Stack.storeSlot .reference slot = .storeShort .reference slot.toUInt8 ∨
      Stack.storeSlot .reference slot = .store .reference slot := by
    unfold Stack.storeSlot
    split_ifs
    · exact .inl rfl
    · exact .inr rfl
  obtain ⟨depth, falls, met⟩ := f
  cases hDepth
  rcases hStore with hStore | hStore <;> rw [hStore] <;>
    exact .cons ⟨Nat.zero_le _, nofun⟩ (.cons ⟨Nat.le_refl _, nofun⟩
      (.cons ⟨Nat.le_add_left _ _, nofun⟩ (.nil _)))

/-- The constructor call on the object that waits pops that object and has no result, since constructors
are void. -/
theorem moves_construction (instanceClass : String) :
    Moves atLabel 1 0 [.invoke .special ⟨instanceClass, "<init>", [], "V"⟩] :=
  .instr _ rfl rfl (Nat.le_refl _) rfl

/-- Between instructions that leave nothing behind. All code may start here, and jumps arrive here
only. -/
structure AtRest (p : Progress) (f : Flow) : Prop where
  pending : p.pending = []
  depth : f.depth = 0

/-- Between an allocation, the last instruction before, and its constructor call, the first one after.
This is the one place where the stack is not empty. -/
def Waiting (before after : List Code.Instr) (p : Progress) (f : Flow) : Prop :=
  ∃ name className earlier later, before = earlier ++ [allocation name className] ∧
    after = construction name className :: later ∧ p.pending = [name] ∧ f.depth = 1 ∧ f.falls = true

/-- Code selected for a body, together with a reading of it that is at rest between instructions
except where an object waits. -/
inductive Balanced (site : Site) (atLabel : String → Nat) :
    Progress → Flow → List Code.Instr → List Stack.Instr → Progress → Flow → Prop
  | nil {p : Progress} {f : Flow} (hStart : AtRest p f) : Balanced site atLabel p f [] [] p f
  | single {p p₁ p' : Progress} {f f₁ f' : Flow} {i : Code.Instr} {rest : List Code.Instr}
      {code others : List Stack.Instr} (hStart : AtRest p f)
      (hCode : (site.instr i).run p = .ok (code, p₁)) (hFlows : Flows atLabel f code f₁)
      (hRest : Balanced site atLabel p₁ f₁ rest others p' f') :
      Balanced site atLabel p f (i :: rest) (code ++ others) p' f'
  | object {p p₁ p₂ p' : Progress} {f f₁ f₂ f' : Flow} {name className : String}
      {rest : List Code.Instr} {code second others : List Stack.Instr} (hStart : AtRest p f)
      (hCode : (site.instr (allocation name className)).run p = .ok (code, p₁))
      (hFlows : Flows atLabel f code f₁) (hPending : p₁.pending = [name]) (hDepth : f₁.depth = 1)
      (hFalls : f₁.falls = true)
      (hSecond : (site.instr (construction name className)).run p₁ = .ok (second, p₂))
      (hFlows₂ : Flows atLabel f₁ second f₂)
      (hRest : Balanced site atLabel p₂ f₂ rest others p' f') :
      Balanced site atLabel p f (allocation name className :: construction name className :: rest)
        (code ++ (second ++ others)) p' f'

/-- Depths of labels that suit selected code: the comparisons stand over `bases` cells each, and
everything else begins and ends with an empty stack. -/
structure LabelDepths (bases : Nat → Nat) (first last : Nat) (atLabel : String → Nat) : Prop where
  comparisons : ∀ id, first ≤ id → id < last →
    atLabel (comparisonLabels id).1 = bases id ∧ atLabel (comparisonLabels id).2 = bases id + 1
  texts : ∀ l : Label, atLabel l.text = 0

/-- The labels of one instruction and those of the ones after it can be looked at separately. The first
ones all stand over the same depth, since an instruction is selected over one stack. -/
theorem LabelDepths.split {base first middle last : Nat} {bases : Nat → Nat}
    (hFirst : first ≤ middle) (hLast : middle ≤ last)
    (h : LabelDepths (fun id => if id < middle then base else bases id) first last atLabel) :
    ComparisonsAt atLabel base first middle ∧ LabelDepths bases middle last atLabel := by
  refine ⟨?_, ?_, h.texts⟩
  · intro id hFrom hTo
    simpa only [if_pos hTo] using h.comparisons id hFrom (by omega)
  · intro id hFrom hTo
    simpa only [if_neg (Nat.not_lt.mpr hFrom)] using h.comparisons id (by omega) hTo

/-- Every body that pairs allocations with constructor calls can be read as balanced code, if the labels
of comparisons are given the depths that the instructions around them call for. Induction is on the
pairing, so that an allocation and its call are one step. -/
theorem balanced_codeOf {source : List Code.Instr} (hComplete : Complete source)
    (hPending : p.pending = []) (h : (codeOf site source).run p = .ok (code, p')) :
    ∃ bases, ∀ atLabel, LabelDepths bases p.comparisons p'.comparisons atLabel →
      ∀ f : Flow, f.depth = 0 → ∃ f', f'.depth = 0 ∧ Balanced site atLabel p f source code p' f' := by
  induction hComplete generalizing p code with
  | nil =>
      obtain ⟨rfl, rfl⟩ := codeOf_nil_run.mp h
      exact ⟨fun _ => 0, fun atLabel _ f hDepth => ⟨f, hDepth, .nil ⟨hPending, hDepth⟩⟩⟩
  | @single i rest hPlain hRest ih =>
      obtain ⟨_, p₁, _, hFirst, hOthers, rfl⟩ := codeOf_cons_run.mp h
      obtain ⟨hPending₁, base, hMoves⟩ := moves_instr hPending hPlain hFirst
      obtain ⟨bases, hBalanced⟩ := ih hPending₁ hOthers
      refine ⟨fun id => if id < p₁.comparisons then base else bases id, ?_⟩
      intro atLabel hLabels f hDepth
      obtain ⟨hOwn, hOthersLabels⟩ :=
        hLabels.split (emitted_instr hFirst).le (emitted_codeOf hOthers).le
      obtain ⟨f₁, hFlows, hDepth₁⟩ := hMoves atLabel hOwn hLabels.texts f hDepth
      obtain ⟨f', hDepth', hTail⟩ := hBalanced atLabel hOthersLabels f₁ hDepth₁
      exact ⟨f', hDepth', .single ⟨hPending, hDepth⟩ hFirst hFlows hTail⟩
  | @object name className rest hRest ih =>
      obtain ⟨_, _, _, hFirst, hTail, rfl⟩ := codeOf_cons_run.mp h
      obtain ⟨_, _, _, hSecond, hOthers, rfl⟩ := codeOf_cons_run.mp hTail
      obtain ⟨rfl, _, _, _, _, rfl⟩ := allocation_run hPending hFirst
      obtain ⟨rfl, _, _, rfl⟩ := construction_run rfl hSecond
      obtain ⟨bases, hBalanced⟩ := ih rfl hOthers
      refine ⟨bases, fun atLabel hLabels f hDepth => ?_⟩
      obtain ⟨f₂, hFlows₂, hDepth₂⟩ := moves_construction _ ⟨1, true, f.met⟩ rfl
      obtain ⟨f', hDepth', hRest⟩ := hBalanced atLabel hLabels f₂ hDepth₂
      exact ⟨f', hDepth',
        .object ⟨hPending, hDepth⟩ hFirst (flows_allocation hDepth) rfl rfl rfl hSecond hFlows₂ hRest⟩

namespace Balanced

variable {f f' : Flow} {source : List Code.Instr}

/-- The reading of the code by its instructions is one by the flow of control as well, which is what
depths at places are defined from. -/
theorem flows (h : Balanced site atLabel p f source code p' f') : Flows atLabel f code f' := by
  induction h with
  | nil => exact .nil _
  | single _ _ hFlows _ ih => exact hFlows.append ih
  | object _ _ hFlows _ _ _ _ hFlows₂ _ ih => exact hFlows.append (hFlows₂.append ih)

/-- The reading is of the code that selection gives for the body, not just of some code with the same
effect. -/
theorem codeOf_run (h : Balanced site atLabel p f source code p' f') :
    (codeOf site source).run p = .ok (code, p') := by
  induction h with
  | nil => exact codeOf_nil_run.mpr ⟨rfl, rfl⟩
  | single _ hCode _ _ ih => exact codeOf_cons_run.mpr ⟨_, _, _, hCode, ih, rfl⟩
  | object _ hCode _ _ _ _ hSecond _ _ ih =>
      exact codeOf_cons_run.mpr
        ⟨_, _, _, hCode, codeOf_cons_run.mpr ⟨_, _, _, hSecond, ih, rfl⟩, rfl⟩

/-- A reading starts at rest, or it would have begun between an allocation and its constructor call. -/
theorem start (h : Balanced site atLabel p f source code p' f') : AtRest p f := by
  cases h with
  | nil hStart => exact hStart
  | single hStart => exact hStart
  | object hStart => exact hStart

/-- A place where a body may be cut in two, with the code on both sides. It holds what the selection and
the reading of the stack know there. -/
structure Cut (site : Site) (atLabel : String → Nat) (p : Progress) (f : Flow)
    (before after : List Code.Instr) (code : List Stack.Instr) (p' : Progress) (f' : Flow) where
  first : List Stack.Instr
  rest : List Stack.Instr
  progress : Progress
  flow : Flow
  code_eq : code = first ++ rest
  first_run : (codeOf site before).run p = .ok (first, progress)
  rest_run : (codeOf site after).run progress = .ok (rest, p')
  first_flows : Flows atLabel f first flow
  rest_flows : Flows atLabel flow rest f'
  between : AtRest progress flow ∨ Waiting before after progress flow

/-- A cut further on, after one more instruction. The code of that instruction moves to the first
side. -/
def Cut.shift {i : Code.Instr} {before after : List Code.Instr} {first others : List Stack.Instr}
    {p₁ : Progress} {f₁ : Flow} (hCode : (site.instr i).run p = .ok (first, p₁))
    (hFlows : Flows atLabel f first f₁) (cut : Cut site atLabel p₁ f₁ before after others p' f') :
    Cut site atLabel p f (i :: before) after (first ++ others) p' f' where
  first := first ++ cut.first
  rest := cut.rest
  progress := cut.progress
  flow := cut.flow
  code_eq := (congrArg (first ++ ·) cut.code_eq).trans (List.append_assoc _ _ _).symm
  first_run := codeOf_cons_run.mpr ⟨_, _, _, hCode, cut.first_run, rfl⟩
  rest_run := cut.rest_run
  first_flows := hFlows.append cut.first_flows
  rest_flows := cut.rest_flows
  between := by
    refine cut.between.imp_right ?_
    rintro ⟨name, className, earlier, later, rfl, hAfter, hWaits⟩
    exact ⟨name, className, i :: earlier, later, rfl, hAfter, hWaits⟩

/-- The cut before the first instruction, where all code is on the second side. -/
def Cut.zero (h : Balanced site atLabel p f source code p' f') :
    Cut site atLabel p f [] source code p' f' where
  first := []
  rest := code
  progress := p
  flow := f
  code_eq := rfl
  first_run := codeOf_nil_run.mpr ⟨rfl, rfl⟩
  rest_run := h.codeOf_run
  first_flows := .nil f
  rest_flows := h.flows
  between := .inl h.start

/-- A balanced body can be cut between any two of its instructions. The cut is at rest or inside the pair
of an allocation and its constructor call, for which the reading has one step. -/
theorem cut (h : Balanced site atLabel p f source code p' f') {before after : List Code.Instr}
    (hSource : source = before ++ after) :
    Nonempty (Cut site atLabel p f before after code p' f') := by
  induction h generalizing before with
  | nil hStart =>
      obtain ⟨rfl, rfl⟩ := List.append_eq_nil_iff.mp hSource.symm
      exact ⟨.zero (.nil hStart)⟩
  | @single p p₁ p' f f₁ f' i rest code others hStart hCode hFlows hRest ih =>
      cases before with
      | nil =>
          subst hSource
          exact ⟨.zero (.single hStart hCode hFlows hRest)⟩
      | cons j before =>
          obtain ⟨rfl, hTail⟩ := List.cons.inj hSource
          obtain ⟨cut⟩ := ih hTail
          exact ⟨cut.shift hCode hFlows⟩
  | @object p p₁ p₂ p' f f₁ f₂ f' name className rest code second others hStart hCode hFlows hPending
      hDepth hFalls hSecond hFlows₂ hRest ih =>
      match before with
      | [] =>
          subst hSource
          exact ⟨.zero
            (.object hStart hCode hFlows hPending hDepth hFalls hSecond hFlows₂ hRest)⟩
      | [j] =>
          obtain ⟨rfl, rfl⟩ := List.cons.inj hSource
          have hWaiting : Waiting [allocation name className] _ p₁ f₁ :=
            ⟨name, className, [], rest, rfl, rfl, hPending, hDepth, hFalls⟩
          exact ⟨code, second ++ others, p₁, f₁, rfl, codeOf_cons_run.mpr
              ⟨_, _, _, hCode, codeOf_nil_run.mpr ⟨rfl, rfl⟩, (List.append_nil _).symm⟩,
            codeOf_cons_run.mpr ⟨_, _, _, hSecond, hRest.codeOf_run, rfl⟩, hFlows,
            hFlows₂.append hRest.flows, .inr hWaiting⟩
      | j :: k :: before =>
          obtain ⟨rfl, hSecondSource⟩ := List.cons.inj hSource
          obtain ⟨rfl, hTail⟩ := List.cons.inj hSecondSource
          obtain ⟨cut⟩ := ih hTail
          exact ⟨(cut.shift hSecond hFlows₂).shift hCode hFlows⟩

end Balanced

/-- Where a body is cut, its code has the depth of the cut, also before a label, because the labels of
lowered code are at rest. -/
theorem Balanced.Cut.depthAt_eq {f' : Flow} {before after : List Code.Instr}
    (hTexts : ∀ l : Label, atLabel l.text = 0)
    (cut : Cut site atLabel p .start before after code p' f') :
    Flow.depthAt atLabel .start code cut.first.length = cut.flow.depth := by
  obtain ⟨first, rest, q, g, rfl, hFirstRun, hRestRun, hFirst, hRest, hBetween⟩ := cut
  dsimp only at hBetween ⊢
  rw [Flow.depthAt_length hFirst]
  cases hRest with
  | nil => rfl
  | @cons _ _ i rest hFits _ =>
      rcases hBetween with hAtRest | ⟨_, _, _, _, _, _, _, _, hFalls⟩
      · cases i with
        | label name =>
            change atLabel name = g.depth
            rw [hAtRest.depth]
            rcases hFits.2 with hZero | hMet
            · exact hZero
            · have hTarget := (hFirst.met_subset hMet).resolve_right (by simp [Flow.start])
              have hLabel : name ∈ Stack.labels (.label name :: rest) := by
                simp [Stack.Instr.label?]
              obtain ⟨l, rfl⟩ := (emitted_codeOf hFirstRun).label_across (emitted_codeOf hRestRun)
                hTarget hLabel
              exact hTexts l
        | _ => rfl
      · exact Flow.before_of_falls hFalls fun _ hHead => by
          cases hHead
          exact hFits

/-- The labels of comparisons and those of the source are all different, so that each can be given
facts of its own. -/
theorem exists_atLabel {α : Type} (yes stop : Nat → α) (text : Label → α) :
    ∃ atLabel : String → α,
      (∀ id, atLabel (comparisonLabels id).1 = yes id ∧ atLabel (comparisonLabels id).2 = stop id) ∧
        ∀ l : Label, atLabel l.text = text l := by
  classical
  let atLabel (name : String) : α :=
    if h : ∃ id, (comparisonLabels id).1 = name then yes h.choose
    else if h : ∃ id, (comparisonLabels id).2 = name then stop h.choose
    else if h : ∃ l : Label, l.text = name then text h.choose
    else yes 0
  refine ⟨atLabel, fun id => ⟨?_, ?_⟩, fun l => ?_⟩
  · have hTrue : ∃ id', (comparisonLabels id').1 = (comparisonLabels id).1 := ⟨id, rfl⟩
    rw [show atLabel _ = yes hTrue.choose from dif_pos hTrue,
      comparisonLabels_true_injective hTrue.choose_spec]
  · have hNot : ¬∃ id', (comparisonLabels id').1 = (comparisonLabels id).2 := by
      rintro ⟨id', hEq⟩
      exact comparisonLabels_ne id' id hEq
    have hEnd : ∃ id', (comparisonLabels id').2 = (comparisonLabels id).2 := ⟨id, rfl⟩
    rw [show atLabel _ = stop hEnd.choose from (dif_neg hNot).trans (dif_pos hEnd),
      comparisonLabels_end_injective hEnd.choose_spec]
  · have hNot : ∀ id, l.text ≠ (comparisonLabels id).1 ∧ l.text ≠ (comparisonLabels id).2 := by
      intro id
      have hOwn := label_text_not_mem_comparisonNames l id (id + 1)
      simpa [comparisonNames_succ] using hOwn
    have hText : ∃ l' : Label, l'.text = l.text := ⟨l, rfl⟩
    have hSame : hText.choose = l := Label.text_injective hText.choose_spec
    calc atLabel l.text
      _ = text hText.choose := (dif_neg fun ⟨id, hEq⟩ => (hNot id).1 hEq.symm).trans
          ((dif_neg fun ⟨id, hEq⟩ => (hNot id).2 hEq.symm).trans (dif_pos hText))
      _ = text l := congrArg text hSame

/-- There are depths for all labels at once. Comparisons are given theirs by number, and the labels of
the source are reached with nothing on the stack. -/
theorem exists_labelDepths (bases : Nat → Nat) :
    ∃ atLabel, ∀ first last, LabelDepths bases first last atLabel := by
  obtain ⟨atLabel, hComparisons, hTexts⟩ :=
    exists_atLabel bases (fun id => bases id + 1) fun _ => 0
  exact ⟨atLabel, fun _ _ => ⟨fun id _ _ => hComparisons id, hTexts⟩⟩

end Selection

/-- The greatest depth of the code of a method is the limit of its block. The block exists if a class
file can state that depth, since nothing else is checked once the code has been selected. -/
theorem methodBlock_of_usage {scope : ClassScope} {m : Method} {frame : Frame} {comparisons greatest : Nat}
    {body : List Stack.Instr} {progress : Progress} (hFrame : Frame.ofMethod m = .ok frame)
    (hBody : (codeOf ⟨scope, m, frame⟩ m.body).run ⟨comparisons, []⟩ = .ok (body, progress))
    (hUsage : Stack.usage m.name body = (Stack.depthLimit m.name greatest).map (⟨·, 0⟩)) :
    methodBlock scope comparisons m = (Stack.depthLimit m.name greatest).map fun limit =>
      (⟨methodHeader scope m, limit, frame.size, body⟩, progress.comparisons) := by
  simp only [methodBlock, hFrame, hBody, hUsage, bind, Except.bind]
  cases Stack.depthLimit m.name greatest <;> rfl

/-- The stack of a method that was lowered and selected. There is one depth for each place of the
code: all ways to a place arrive with it, the operands of the instruction there are in it, and it is
zero between instructions, except where an object has just been allocated and its constructor call
follows. The walk finds the greatest of these depths and fails only if no class file can state it; and
the block that is emitted for the method has this code, and that depth as its limit. -/
theorem stack_disciplined {withConstructor : Bool} {program : Source.Program}
    {unit : Code.ClassUnit} {scope : ClassScope} {m : Method} {frame : Frame} {comparisons : Nat}
    {body : List Stack.Instr} {progress : Progress}
    (hUnit : Lowering.ofProgram withConstructor program = .ok unit) (hMethod : m ∈ unit.methods)
    (hBody : (codeOf ⟨scope, m, frame⟩ m.body).run ⟨comparisons, []⟩ = .ok (body, progress)) :
    (∀ method instruction, Stack.usage m.name body ≠ .error (.stackUnderflow method instruction)) ∧
      ∃ (depth : Nat → Nat) (greatest : Nat),
        (∀ place k, Stack.Arrives body place k → k = depth place ∧ k ≤ greatest) ∧
        (∀ place i, body[place]? = some i → i.pops ≤ depth place) ∧
        (∀ before after, m.body = before ++ after → ∃ first rest q,
          (codeOf ⟨scope, m, frame⟩ before).run ⟨comparisons, []⟩ = .ok (first, q) ∧
          body = first ++ rest ∧
          (depth first.length = 0 ∧ q.pending = [] ∨
            ∃ name className earlier later,
              before = earlier ++ [allocation name className] ∧
              after = construction name className :: later ∧
              depth first.length = 1 ∧ q.pending = [name])) ∧
        IsGreatest (depth '' Set.Iic body.length) greatest ∧
        Stack.usage m.name body = (Stack.depthLimit m.name greatest).map (⟨·, 0⟩) ∧
        (∀ usage, Stack.usage m.name body = .ok usage → usage.maxDepth.toNat = greatest) ∧
        (Frame.ofMethod m = .ok frame →
          ((∃ block after, methodBlock scope comparisons m = .ok (block, after)) ↔
            greatest < UInt16.size) ∧
          ∀ block after, methodBlock scope comparisons m = .ok (block, after) →
            block.body = body ∧ block.maxStack.toNat = greatest) := by
  have hComplete := Lowering.complete_ofProgram hUnit m hMethod
  obtain ⟨bases, hBalanced⟩ := balanced_codeOf hComplete rfl hBody
  obtain ⟨atLabel, hLabels⟩ := exists_labelDepths bases
  obtain ⟨f', hDepth, hBalanced⟩ := hBalanced atLabel (hLabels _ _) .start rfl
  obtain ⟨greatest, hGreatest, hUsage⟩ := hBalanced.flows.usage m.name hDepth
  refine ⟨?_, Flow.depthAt atLabel .start body, greatest, ?_, ?_, ?_, hGreatest, hUsage, ?_, ?_⟩
  · intro method instruction hError
    rw [hUsage, Stack.depthLimit] at hError
    split at hError <;> cases hError
  · intro place k hArrives
    have hPlace := hArrives.eq_depthAt hBalanced.flows rfl
    refine ⟨hPlace, ?_⟩
    rw [hPlace]
    exact Int.ofNat_le.mpr (hGreatest.2 ⟨place, hArrives.place_le, rfl⟩)
  · exact fun place i hInstr => Flow.pops_le_depthAt hBalanced.flows hInstr
  · intro before after hSplit
    obtain ⟨cut⟩ := hBalanced.cut hSplit
    refine ⟨cut.first, cut.rest, cut.progress, cut.first_run, cut.code_eq, ?_⟩
    rw [cut.depthAt_eq (hLabels 0 0).texts]
    rcases cut.between with hRest | ⟨name, className, earlier, later, hBefore, hAfter, hWaits⟩
    · exact .inl ⟨hRest.depth, hRest.pending⟩
    · exact .inr ⟨name, className, earlier, later, hBefore, hAfter, hWaits.2.1, hWaits.1⟩
  · intro usage hOk
    obtain ⟨limit, hLimit, rfl⟩ := Stack.map_depthLimit_ok.mp (hUsage.symm.trans hOk)
    exact hLimit
  · intro hFrame
    have hBlock := methodBlock_of_usage hFrame hBody hUsage
    refine ⟨⟨?_, fun hFits => ?_⟩, ?_⟩
    · rintro ⟨block, after, hOk⟩
      obtain ⟨limit, rfl, -⟩ := Stack.map_depthLimit_ok.mp (hBlock.symm.trans hOk)
      exact limit.toNat_lt
    · have hLimit := (@Stack.depthLimit_ok m.name _ _).mpr (UInt16.toNat_ofNat_of_lt' hFits)
      exact ⟨_, _, hBlock.trans (congrArg _ hLimit)⟩
    · intro block after hOk
      obtain ⟨limit, hLimit, hSame⟩ := Stack.map_depthLimit_ok.mp (hBlock.symm.trans hOk)
      obtain ⟨rfl, -⟩ := Prod.mk.inj hSame
      exact ⟨rfl, hLimit⟩

/-- No way through the method with a loop needs more than two cells, the limit of its block. -/
theorem spin_stack_disciplined :
    Lowering.ofProgram true Spin.program = .ok Spin.unit ∧ Spin.method ∈ Spin.unit.methods ∧
      (codeOf ⟨.ofUnit "java/lang/Object" Spin.unit, Spin.method, Spin.frame⟩
        Spin.method.body).run ⟨0, []⟩ = .ok (Spin.body, .start) ∧
      methodBlock (.ofUnit "java/lang/Object" Spin.unit) 0 Spin.method =
        .ok (⟨"static spin(Z)Z", 2, 1, Spin.body⟩, 0) ∧
      ∀ place k, Stack.Arrives Spin.body place k → k ≤ 2 := by
  have hMethod : Spin.method ∈ Spin.unit.methods := List.mem_singleton.mpr rfl
  have hBody := Spin.selected (.ofUnit "java/lang/Object" Spin.unit) Spin.method
  have hBlock := Spin.block (.ofUnit "java/lang/Object" Spin.unit)
  obtain ⟨_, depth, greatest, hArrives, _, _, _, _, _, hEmitted⟩ :=
    stack_disciplined Spin.lowered hMethod hBody
  obtain rfl : 2 = greatest := ((hEmitted Spin.framed).2 _ _ hBlock).2
  exact ⟨Spin.lowered, hMethod, hBody, hBlock, fun place k h => (hArrives place k h).2⟩

end MiniJava.Assembly
