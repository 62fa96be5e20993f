import MiniJava.Proofs.Labels.Lowered
import MiniJava.Proofs.Ways
import Mathlib.Data.Set.BooleanAlgebra
import Mathlib.Order.CompletePartialOrder

/-! Which variables three-address code has assigned, on every way to an instruction. -/

namespace MiniJava.Code

/-- The variable that the instruction gives a value. Storing into an item gives none, since the array
variable keeps its own. -/
def Instr.writes? : Instr → Option String
  | .assign (.variable name _) _ _ => some name
  | _ => none

/-- The variables whose values the instruction uses. To store into an item of an array, the array
and the place are read. -/
def Instr.reads : Instr → List String
  | .assign (.variable _ _) _ rhs => rhs.names
  | i => i.names

/-- What is read is named by the instruction, but not the other way round: the destination of an
assignment is not read. -/
theorem Instr.mem_names_of_reads {i : Instr} {name : String} (h : name ∈ i.reads) :
    name ∈ i.names := by
  cases i with
  | assign dest ty rhs =>
      cases dest with
      | «variable» dest destTy => exact List.mem_cons_of_mem _ h
      | _ => exact h
  | _ => exact h

/-- How control moves through a method body: to the next instruction, to the target of a jump, or out of
it by a return. -/
def control : Control Instr Label where
  label? := Instr.label?
  target? := Instr.target?
  goesOn
    | .goto _ | .ret _ _ => false
    | _ => true

/-- The variables assigned so far; an instruction needs those that it reads. The more are assigned, the
more instructions may follow. -/
def assigned : Analysis Instr Label (Set String) where
  toControl := control
  needs known i := ∀ name ∈ i.reads, name ∈ known
  effect known i := {name | name ∈ known ∨ i.writes? = some name}
  needs_mono hLe hNeeds name hName := hLe (hNeeds name hName)
  effect_mono hLe _ _ hName := hName.imp_left (hLe ·)

/-- On all ways through the code every variable is assigned before it is read, if those in `pre` are
at its start; and those in `post` are at its end. -/
def Assigns (pre : Set String) (code : List Instr) (post : Set String) : Prop :=
  ∀ known : Set String, pre ⊆ known → ∃ atLabel known',
    assigned.Flows atLabel (some known) code known' ∧
      ∀ facts : Set String, known' = some facts → known ⊆ facts ∧ post ⊆ facts

/-- The facts at labels outside resolved code do not matter, since it neither holds these labels nor
jumps to them. -/
theorem Resolved.flows {code : List Instr} (hCode : Resolved code) {known known' : Option (Set String)}
    {atLabel atLabel' : Label → Set String} (h : assigned.Flows atLabel known code known')
    (hSame : ∀ l ∈ labels code, atLabel' l = atLabel l) :
    assigned.Flows atLabel' known code known' := by
  refine h.congr fun i hi l hl => hSame l ?_
  rcases hl with hLabel | hTarget
  · exact List.mem_filterMap.mpr ⟨i, hi, hLabel⟩
  · exact hCode.closed l (List.mem_filterMap.mpr ⟨i, hi, hTarget⟩)

section Reading

variable {atLabel : Label → Set String} {known : Set String} {reached known' : Option (Set String)}
  {rest : List Instr}

/-- An instruction that is neither a label nor a jump fits wherever the variables that it reads are
known. -/
theorem fits_plain {i : Instr} (hLabel : i.label? = none) (hTarget : i.target? = none)
    (hReads : ∀ name ∈ i.reads, name ∈ known) : assigned.Fits atLabel (some known) i where
  enters l _ hLabel' := by
    rw [show assigned.label? i = i.label? from rfl, hLabel] at hLabel'
    cases hLabel'
  needs facts hFacts := by
    rw [Analysis.before, show assigned.label? i = none from hLabel] at hFacts
    cases hFacts
    exact hReads
  jumps l _ hTarget' := by
    rw [show assigned.target? i = i.target? from rfl, hTarget] at hTarget'
    cases hTarget'

/-- Control goes on behind such an instruction, and what is known there is what it knew and what it
assigns. -/
theorem next_plain {i : Instr} (hLabel : i.label? = none) (hGoesOn : control.goesOn i = true) :
    assigned.next atLabel (some known) i = some (assigned.effect known i) := by
  rw [Analysis.next, if_pos (show assigned.goesOn i = true from hGoesOn), Analysis.before,
    show assigned.label? i = none from hLabel]
  rfl

/-- An instruction without a variable to assign leaves known what was known. -/
theorem effect_of_no_write {i : Instr} (hWrites : i.writes? = none) :
    assigned.effect known i = known := by
  ext name
  change name ∈ known ∨ i.writes? = some name ↔ name ∈ known
  simp [hWrites]

theorem effect_assign {name : String} {ty ty' : Ty} {rhs : Instr} :
    assigned.effect known (.assign (.variable name ty) ty' rhs) = insert name known := by
  ext name'
  change name' ∈ known ∨ some name = some name' ↔ _
  rw [Set.mem_insert_iff, Option.some.injEq, or_comm, eq_comm]

/-- An assignment at the front of code: the rest may use the variable as well as all that could be used
before. -/
theorem flows_assign {name : String} {ty ty' : Ty} {rhs : Instr}
    (hReads : ∀ read ∈ rhs.names, read ∈ known)
    (hRest : assigned.Flows atLabel (some (insert name known)) rest known') :
    assigned.Flows atLabel (some known) (.assign (.variable name ty) ty' rhs :: rest) known' := by
  refine .cons (fits_plain rfl rfl hReads) ?_
  rwa [next_plain rfl rfl, effect_assign]

/-- A conditional jump at the front of code: what its target asks for must be known, and nothing becomes
known by it. -/
theorem flows_branch {condition : Condition} {target : Label} (hTarget : atLabel target ⊆ known)
    (hReads : ∀ name ∈ condition.names, name ∈ known)
    (hRest : assigned.Flows atLabel (some known) rest known') :
    assigned.Flows atLabel (some known) (.branch condition target :: rest) known' := by
  refine .cons ⟨nofun, ?_, ?_⟩ ?_
  · rintro _ ⟨⟩
    exact hReads
  · rintro _ _ ⟨⟩ ⟨⟩
    rwa [effect_of_no_write rfl]
  · rwa [next_plain rfl rfl, effect_of_no_write rfl]

/-- A jump at the front of code. What follows is reached only through labels, so that nothing is known
there until one comes. -/
theorem flows_goto {target : Label} (hTarget : ∀ facts, reached = some facts → atLabel target ⊆ facts)
    (hRest : assigned.Flows atLabel none rest known') :
    assigned.Flows atLabel reached (.goto target :: rest) known' := by
  refine .cons ⟨nofun, fun _ _ => nofun, ?_⟩ hRest
  rintro _ facts ⟨⟩ hFacts
  rw [effect_of_no_write rfl]
  exact hTarget facts hFacts

/-- A label at the front of code: from there on that is known which every jump to it has ensured. -/
theorem flows_label {l : Label} (hEnters : ∀ facts, reached = some facts → atLabel l ⊆ facts)
    (hRest : assigned.Flows atLabel (some (atLabel l)) rest known') :
    assigned.Flows atLabel reached (.label l :: rest) known' := by
  refine .cons ⟨?_, fun _ _ => nofun, nofun⟩ ?_
  · rintro _ facts ⟨⟩ hFacts
    exact hEnters facts hFacts
  · have hNext : assigned.next atLabel reached (.label l) = some (atLabel l) :=
      congrArg some (effect_of_no_write rfl)
    rwa [hNext]

end Reading

namespace Assigns

variable {pre mid post : Set String} {code rest : List Instr}

theorem nil (hPost : post ⊆ pre) : Assigns pre [] post := by
  intro known hKnown
  refine ⟨fun _ => ∅, some known, .nil _, ?_⟩
  rintro _ ⟨⟩
  exact ⟨le_refl _, hPost.trans hKnown⟩

theorem weaken {pre' post' : Set String} (h : Assigns pre code post) (hPre : pre ⊆ pre')
    (hPost : post' ⊆ pre' ∪ post) : Assigns pre' code post' := by
  intro known hKnown
  obtain ⟨atLabel, known', hFlows, hKnown'⟩ := h known (hPre.trans hKnown)
  refine ⟨atLabel, known', hFlows, fun facts hFacts => ?_⟩
  obtain ⟨hStill, hNew⟩ := hKnown' facts hFacts
  exact ⟨hStill, hPost.trans (Set.union_subset (hKnown.trans hStill) hNew)⟩

/-- An instruction that is neither a label nor a jump. -/
theorem instr (i : Instr) (hLabel : i.label? = none) (hTarget : i.target? = none)
    (hReads : ∀ name ∈ i.reads, name ∈ pre) : Assigns pre [i] {name | i.writes? = some name} := by
  intro known hKnown
  refine ⟨fun _ => ∅, _, .cons (fits_plain hLabel hTarget fun name hName =>
    hKnown (hReads name hName)) (.nil _), ?_⟩
  intro facts hFacts
  cases hGoesOn : control.goesOn i with
  | true =>
      rw [next_plain hLabel hGoesOn] at hFacts
      cases hFacts
      exact ⟨fun name hName => .inl hName, fun name hName => .inr hName⟩
  | false =>
      rw [Analysis.next, show assigned.goesOn i = false from hGoesOn] at hFacts
      cases hFacts

/-- Parts of code one after the other, with labels from different ranges: the rest may read what the
first part assigns, and no jump leads from one part into the other. -/
theorem append {first middle last : Nat} (hCode : Assigns pre code mid)
    (hRest : Assigns (pre ∪ mid) rest post) (hOwnCode : OwnLabels first middle code)
    (hOwnRest : OwnLabels middle last rest) : Assigns pre (code ++ rest) (mid ∪ post) := by
  intro known hKnown
  obtain ⟨atCode, between, hFlows, hBetween⟩ := hCode known hKnown
  -- Where control does not come to the end of the code, the rest may be read from anything.
  obtain ⟨facts, hFacts, hBetween⟩ : ∃ facts : Set String, known ∪ mid ⊆ facts ∧
      ∀ facts', between = some facts' → facts' = facts := by
    cases between with
    | none => exact ⟨known ∪ mid, le_refl _, nofun⟩
    | some facts =>
        obtain ⟨hStill, hNew⟩ := hBetween facts rfl
        exact ⟨facts, Set.union_subset hStill hNew, fun _ h => (Option.some.inj h).symm⟩
  obtain ⟨hStill, hNew⟩ := Set.union_subset_iff.mp hFacts
  obtain ⟨atRest, known', hFlowsRest, hKnown'⟩ :=
    hRest facts (Set.union_subset (hKnown.trans hStill) hNew)
  let atLabel (l : Label) : Set String := if l ∈ labels code then atCode l else atRest l
  have hFirst : assigned.Flows atLabel (some known) code between :=
    hOwnCode.flows hFlows fun l hl => if_pos hl
  have hApart : ∀ l ∈ labels rest, atLabel l = atRest l := by
    intro l hl
    refine if_neg fun hl' => ?_
    have hBelow := hOwnCode.bounds l hl'
    have hAbove := hOwnRest.bounds l hl
    omega
  obtain ⟨known'', hSecond, hKnown''⟩ : ∃ known'', assigned.Flows atLabel between rest known'' ∧
      ∀ facts', known'' = some facts' → known' = some facts' := by
    have hReached := hOwnRest.flows hFlowsRest hApart
    cases between with
    | none => exact hReached.unreached
    | some facts' =>
        obtain rfl := hBetween facts' rfl
        exact ⟨known', hReached, fun _ h => h⟩
  refine ⟨atLabel, known'', hFirst.append hSecond, fun facts' hFacts' => ?_⟩
  obtain ⟨hStill', hNew'⟩ := hKnown' facts' (hKnown'' facts' hFacts')
  exact ⟨hStill.trans hStill', Set.union_subset (hNew.trans hStill') hNew'⟩

/-- Code that neither jumps nor can be jumped to, and that needs nothing of itself. It is read from front
to end once. -/
theorem straight (hLabels : labels code = []) (hTargets : targets code = [])
    (hReads : ∀ i ∈ code, ∀ name ∈ i.reads, name ∈ pre) : Assigns pre code ∅ := by
  induction code with
  | nil => exact .nil (Set.empty_subset _)
  | cons i rest ih =>
      obtain ⟨hHere, hThere⟩ := List.forall_mem_cons.mp hReads
      rw [labels_cons, List.append_eq_nil_iff, Option.toList_eq_nil_iff] at hLabels
      rw [targets_cons, List.append_eq_nil_iff, Option.toList_eq_nil_iff] at hTargets
      have hFirst := Assigns.instr i hLabels.1 hTargets.1 hHere
      have hOthers := (ih hLabels.2 hTargets.2 hThere).weaken
        (Set.subset_union_left (t := {name | i.writes? = some name})) (Set.empty_subset _)
      exact (hFirst.append hOthers (.straight (Nat.le_refl 0) (by rw [labels_cons, hLabels.1]; rfl)
        (by rw [targets_cons, hTargets.1]; rfl))
        (.straight (Nat.le_refl 0) hLabels.2 hTargets.2)).weaken (le_refl _) (Set.empty_subset _)

end Assigns

end MiniJava.Code
