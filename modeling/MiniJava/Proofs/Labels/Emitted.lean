import MiniJava.Proofs.Assembly.Pervades
import MiniJava.Proofs.Labels.Lowered
import Std.Data.String.ToNat

/-! Labels of stack code. The code of a body has the labels of the body and two for each comparison
that is turned into a value; the numbers of comparisons run through all methods of the class. -/

namespace MiniJava.Code

/-- The first letters tell the kinds of labels from each other, whatever numbers stand behind them. -/
theorem Label.text_take (l : Label) : l.text.toList.take 4 = l.kind.text.toList.take 4 := by
  rw [Label.text, String.toList_append, String.toList_append, List.append_assoc,
    List.take_append_of_le_length]
  cases l.kind <;> decide

/-- The text of a label determines it: the first letters tell its kind, and the number comes behind an
underscore. -/
theorem Label.text_injective : Function.Injective Label.text := by
  rintro ⟨kind, id⟩ ⟨kind', id'⟩ hText
  obtain rfl : kind = kind' := by
    have hTake := congrArg (fun s => s.toList.take 4) hText
    simp only [Label.text_take] at hTake
    cases kind <;> cases kind' <;> first | rfl | exact absurd hTake (by decide)
  have hId : toString id = toString id' := by
    simpa [Label.text] using hText
  exact congrArg _ (Nat.repr_injective hId)

end MiniJava.Code

namespace MiniJava.Assembly

open Code (Condition Method Operand Ty Label)
open Stack (Straight labels targets)

/-- The labels of the comparisons with numbers from `first` up to, but not including, `last`, two for
each. -/
def comparisonNames (first last : Nat) : List String :=
  (List.range' first (last - first)).flatMap fun id =>
    [(comparisonLabels id).1, (comparisonLabels id).2]

theorem comparisonNames_self (id : Nat) : comparisonNames id id = [] := by
  simp [comparisonNames]

theorem comparisonNames_succ (id : Nat) :
    comparisonNames id (id + 1) = [(comparisonLabels id).1, (comparisonLabels id).2] := by
  simp [comparisonNames]

/-- The labels of the comparisons of one part of code and those of the next part are together the labels
of both. -/
theorem comparisonNames_append {first middle last : Nat} (hFirst : first ≤ middle)
    (hLast : middle ≤ last) :
    comparisonNames first middle ++ comparisonNames middle last = comparisonNames first last := by
  have hRange : List.range' first (middle - first) ++ List.range' middle (last - middle) =
      List.range' first (last - first) := by
    rw [show last - first = (middle - first) + (last - middle) by omega, ← List.range'_append]
    congr 2
    omega
  rw [comparisonNames, comparisonNames, comparisonNames, ← hRange, List.flatMap_append]

/-- The two labels of a comparison end in different letters. -/
theorem comparisonLabels_ne (id id' : Nat) : (comparisonLabels id).1 ≠ (comparisonLabels id').2 := by
  intro hEq
  have hLast := congrArg (fun s => s.toList.reverse.head?) hEq
  simp [comparisonLabels, String.toList_append] at hLast

theorem comparisonLabels_true_injective {id id' : Nat}
    (h : (comparisonLabels id).1 = (comparisonLabels id').1) : id = id' := by
  have hId : toString id = toString id' := by simpa [comparisonLabels] using h
  exact Nat.repr_injective hId

theorem comparisonLabels_end_injective {id id' : Nat}
    (h : (comparisonLabels id).2 = (comparisonLabels id').2) : id = id' := by
  have hId : toString id = toString id' := by simpa [comparisonLabels] using h
  exact Nat.repr_injective hId

/-- The labels of any range of comparisons are all different, as numbers and endings tell them apart. -/
theorem comparisonNames_nodup (first last : Nat) : (comparisonNames first last).Nodup := by
  rw [comparisonNames, List.nodup_flatMap]
  constructor
  · intro id _
    simpa using comparisonLabels_ne id id
  · refine List.Nodup.pairwise_of_forall_ne (List.nodup_range') ?_
    intro id _ id' _ hNe
    simp only [Function.onFun, List.disjoint_cons_left, List.mem_cons, List.not_mem_nil, or_false,
      not_or, List.disjoint_nil_left, and_true]
    refine ⟨⟨?_, comparisonLabels_ne id id'⟩, (comparisonLabels_ne id' id).symm, ?_⟩
    · exact fun h => hNe (comparisonLabels_true_injective h)
    · exact fun h => hNe (comparisonLabels_end_injective h)

/-- A text is among these labels if it is one of the two for some number in the range. -/
theorem mem_comparisonNames {first last : Nat} {name : String} :
    name ∈ comparisonNames first last ↔ ∃ id, first ≤ id ∧ id < last ∧
      (name = (comparisonLabels id).1 ∨ name = (comparisonLabels id).2) := by
  simp only [comparisonNames, List.mem_flatMap, List.mem_range'_1, List.mem_cons,
    List.not_mem_nil, or_false]
  constructor
  · rintro ⟨id, hBounds, hName⟩
    exact ⟨id, hBounds.1, by omega, hName⟩
  · rintro ⟨id, hFirst, hLast, hName⟩
    exact ⟨id, by omega, hName⟩

/-- No label of three-address code has the text of one for a comparison, whatever their numbers are. -/
theorem label_text_not_mem_comparisonNames (l : Label) (first last : Nat) :
    l.text ∉ comparisonNames first last := by
  rw [mem_comparisonNames]
  rintro ⟨id, _, _, hName⟩
  have hTake : l.text.toList.take 4 = "cmp_".toList := by
    rcases hName with hName | hName <;>
      · rw [hName, comparisonLabels]
        simp [String.toList_append]
  rw [Label.text_take] at hTake
  revert hTake
  cases l.kind <;> decide

/-- Code whose labels are those of its source and those of the comparisons with numbers from
`first` up to, but not including, `last`. -/
structure Emitted (first last : Nat) (source : List Code.Instr) (code : List Stack.Instr) :
    Prop where
  le : first ≤ last
  labels : (labels code).Perm ((Code.labels source).map Label.text ++ comparisonNames first last)
  targets : ∀ target ∈ targets code,
    target ∈ (Code.targets source).map Label.text ∨ target ∈ comparisonNames first last

namespace Emitted

variable {first middle last : Nat} {source moreSource : List Code.Instr}
  {code rest : List Stack.Instr}

theorem straight (id : Nat) (hSource : Code.labels source = []) (hCode : Straight code) :
    Emitted id id source code := by
  refine ⟨Nat.le_refl _, ?_, ?_⟩
  · rw [hCode.labels, hSource, comparisonNames_self]
    rfl
  · simp [hCode.targets]

/-- Parts of a body one behind another, each with the comparisons that were counted while it was
selected. -/
theorem append (hCode : Emitted first middle source code)
    (hRest : Emitted middle last moreSource rest) :
    Emitted first last (source ++ moreSource) (code ++ rest) := by
  refine ⟨Nat.le_trans hCode.le hRest.le, ?_, ?_⟩
  · rw [Stack.labels_append, Code.labels_append, List.map_append,
      ← comparisonNames_append hCode.le hRest.le]
    refine (hCode.labels.append hRest.labels).trans ?_
    simp only [List.append_assoc]
    refine List.Perm.append_left _ ?_
    rw [← List.append_assoc, ← List.append_assoc]
    exact List.perm_append_comm.append_right _
  · intro target hTarget
    rw [Stack.targets_append, List.mem_append] at hTarget
    rw [Code.targets_append, List.map_append, List.mem_append,
      ← comparisonNames_append hCode.le hRest.le, List.mem_append]
    rcases hTarget with hTarget | hTarget
    · rcases hCode.targets target hTarget with h | h
      · exact .inl (.inl h)
      · exact .inr (.inl h)
    · rcases hRest.targets target hTarget with h | h
      · exact .inl (.inr h)
      · exact .inr (.inr h)

theorem append_straight (hCode : Emitted first last source code) (hRest : Straight rest) :
    Emitted first last source (code ++ rest) := by
  have hStraight : Emitted last last [] rest := straight last rfl hRest
  have hBoth := hCode.append hStraight
  rwa [List.append_nil] at hBoth

theorem straight_append (hCode : Straight code) (hRest : Emitted first last source rest) :
    Emitted first last source (code ++ rest) := by
  have hStraight : Emitted first first [] code := straight first rfl hCode
  exact hStraight.append hRest

/-- Code without labels from its source may have any source without labels. -/
theorem of_nil (hCode : Emitted first last [] code) (hLabels : Code.labels source = [])
    (hTargets : Code.targets source = []) : Emitted first last source code := by
  refine ⟨hCode.le, ?_, ?_⟩
  · rw [hLabels]
    exact hCode.labels
  · rw [hTargets]
    exact hCode.targets

/-- Labels that are apart in the source are so in the code. Those of comparisons are apart by their
numbers and by their words. -/
theorem nodup (hCode : Emitted first last source code) (hSource : (Code.labels source).Nodup) :
    (Stack.labels code).Nodup := by
  rw [hCode.labels.nodup_iff]
  refine (hSource.map Label.text_injective).append (comparisonNames_nodup _ _) ?_
  intro name hLabel hComparison
  obtain ⟨l, _, rfl⟩ := List.mem_map.mp hLabel
  exact label_text_not_mem_comparisonNames l _ _ hComparison

/-- If every jump of the source goes to one of its own labels, so does every jump of the code; the jumps
that comparisons bring in stay within them. -/
theorem closed (hCode : Emitted first last source code)
    (hSource : ∀ target ∈ Code.targets source, target ∈ Code.labels source) :
    ∀ target ∈ Stack.targets code, target ∈ Stack.labels code := by
  intro target hTarget
  rw [hCode.labels.mem_iff, List.mem_append]
  refine (hCode.targets target hTarget).imp_left fun h => ?_
  obtain ⟨l, hl, rfl⟩ := List.mem_map.mp h
  exact List.mem_map_of_mem (hSource l hl)

/-- Jumps from one part of a body into the next go to labels of three-address code only. A comparison
never jumps out of its code. -/
theorem label_across {name : String} (hCode : Emitted first middle source code)
    (hRest : Emitted middle last moreSource rest) (hTarget : name ∈ Stack.targets code)
    (hLabel : name ∈ Stack.labels rest) : ∃ l : Label, name = l.text := by
  rw [hRest.labels.mem_iff, List.mem_append] at hLabel
  rcases hLabel with hText | hAbove
  · obtain ⟨l, _, rfl⟩ := List.mem_map.mp hText
    exact ⟨l, rfl⟩
  · rcases hCode.targets name hTarget with hText | hBelow
    · obtain ⟨l, _, rfl⟩ := List.mem_map.mp hText
      exact ⟨l, rfl⟩
    · have hNodup := comparisonNames_nodup first last
      rw [← comparisonNames_append hCode.le hRest.le] at hNodup
      exact (List.disjoint_of_nodup_append hNodup hBelow hAbove).elim

end Emitted

section Selection

variable {site : Site} {p p' : Progress} {code : List Stack.Instr}

theorem pervades_straight (site : Site) :
    site.Pervades fun i => i.label? = none ∧ i.target? = none where
  operates h := ⟨h.label, h.target⟩
  reads kind _ slot _ := by
    unfold Stack.loadSlot
    split_ifs <;> exact ⟨rfl, rfl⟩
  writes kind _ slot _ := by
    unfold Stack.storeSlot
    split_ifs <;> exact ⟨rfl, rfl⟩
  receiver _ := ⟨rfl, rfl⟩

theorem straight_load {o : Operand} (h : site.load o = .ok code) : Straight code :=
  .of_forall ((pervades_straight site).load h)

theorem comparisons_specialReceiver {receiver : Operand} {className : String}
    (h : (site.specialReceiver receiver).run p = .ok ((className, code), p')) :
    p'.comparisons = p.comparisons := by
  rcases Site.specialReceiver_run.mp h with ⟨_, _, _, _, _, _, rfl⟩ | ⟨_, _, _, _, _, _, rfl⟩ |
    ⟨_, _, _, _, rfl⟩ | ⟨_, _, _, _, rfl⟩
  all_goals rfl

/-- No call compares, so the number of the next comparison stays. -/
theorem comparisons_call {i : Code.Instr} {pushes : Bool}
    (h : (site.call i).run p = .ok ((code, pushes), p')) : p'.comparisons = p.comparisons := by
  cases i with
  | call kind receiver method arguments returnType =>
      cases kind with
      | new =>
          cases hArray : returnType.isArray with
          | true =>
              obtain ⟨_, _, rfl⟩ := (Site.call_newArray_run hArray).mp h
              rfl
          | false =>
              obtain ⟨_, _, _, _, rfl⟩ := (Site.call_newObject_run hArray).mp h
              rfl
      | arrayLength =>
          obtain ⟨_, _, _, _, rfl⟩ := Site.call_arrayLength_run.mp h
          rfl
      | invokeStatic =>
          obtain ⟨_, _, _, _, _, rfl⟩ := Site.call_invokeStatic_run.mp h
          rfl
      | invokeVirtual =>
          obtain ⟨_, _, _, _, _, _, _, rfl⟩ := Site.call_invokeVirtual_run.mp h
          rfl
      | invokeSpecial =>
          obtain ⟨_, _, _, _, hReceiver, _⟩ := Site.call_invokeSpecial_run.mp h
          exact comparisons_specialReceiver hReceiver
  | _ => exact (select_throw_ok h).elim

/-- No call holds labels, and none of its instructions jumps. -/
theorem straight_call {i : Code.Instr} {pushes : Bool}
    (h : (site.call i).run p = .ok ((code, pushes), p')) : Straight code :=
  .of_forall ((pervades_straight site).call (.inr fun _ => ⟨rfl, rfl⟩) h)

/-- The code of a comparison has its two labels, jumps to both and uses up its number. None of this comes
from its source. -/
theorem emitted_comparisonCode (comparison : Stack.Comparison) (id : Nat) :
    Emitted id (id + 1) [] (Site.comparisonCode comparison (comparisonLabels id)) := by
  have hZero : Stack.pushInt 0 = .iconst 0 := by decide
  have hOne : Stack.pushInt 1 = .iconst 1 := by decide
  rw [Site.comparisonCode, hZero, hOne]
  refine ⟨Nat.le_succ _, ?_, ?_⟩
  · rw [comparisonNames_succ]
    simp [Stack.Instr.label?, Code.labels]
  · rw [comparisonNames_succ]
    simp [Stack.Instr.target?]

/-- A value brings in the labels of at most one comparison, and none of its source. -/
theorem emitted_value {i : Code.Instr} (h : (site.value i).run p = .ok (code, p')) :
    Emitted p.comparisons p'.comparisons [] code := by
  cases i with
  | operand o =>
      obtain ⟨hLoad, rfl⟩ := Site.value_operand_run.mp h
      exact .straight _ rfl (straight_load hLoad)
  | binary op left right ty =>
      rw [Site.value_binary] at h
      obtain ⟨_, _, hLeft, hRight, ⟨_, _, rfl, rfl⟩ | ⟨_, _, rfl, rfl⟩⟩ := Site.binary_run.mp h
      · have hOperands := (straight_load hLeft).append (straight_load hRight)
        exact .straight _ rfl (hOperands.append (.single rfl rfl))
      · have hOperands := (straight_load hLeft).append (straight_load hRight)
        exact (emitted_comparisonCode _ _).straight_append hOperands
  | not o ty =>
      obtain ⟨_, hLoad, rfl, rfl⟩ := Site.value_not_run.mp h
      have hNot : Straight [Stack.pushInt 1, .arithmetic .xor] :=
        (Stack.straight_pushInt 1).append (.single rfl rfl)
      exact .straight _ rfl ((straight_load hLoad).append hNot)
  | getField object field ty =>
      obtain ⟨_, _, _, hLoad, rfl, rfl⟩ := Site.value_getField_run.mp h
      exact .straight _ rfl ((straight_load hLoad).append (.single rfl rfl))
  | call kind receiver method arguments returnType =>
      rw [Site.value_call, Site.callValue_run] at h
      rw [comparisons_call h]
      exact .straight _ rfl (straight_call h)
  | _ => exact (select_throw_ok h).elim

theorem emitted_assign {dest : Operand} {ty : Ty} {rhs : Code.Instr}
    (h : (site.assign dest rhs).run p = .ok (code, p')) :
    Emitted p.comparisons p'.comparisons [.assign dest ty rhs] code := by
  cases dest with
  | «variable» name destTy =>
      cases hNew : Site.allocated? rhs with
      | some receiver =>
          obtain ⟨slot, _, _, _, rfl, rfl⟩ := (Site.assign_newObject_run hNew).mp h
          have hNewCode : ∀ className, Straight [.new className, .dup] := fun _ =>
            (Straight.single (i := .new _) rfl rfl).append (.single rfl rfl)
          exact .straight _ rfl ((hNewCode _).append (Stack.straight_storeSlot .reference slot))
      | none =>
          obtain ⟨_, _, _, _, hValue, _, rfl⟩ := (Site.assign_variable_run hNew).mp h
          exact ((emitted_value hValue).append_straight (Stack.straight_storeSlot _ _)).of_nil rfl rfl
  | element array place destTy =>
      obtain ⟨_, slot, _, _, _, _, hPlace, hValue, rfl⟩ := Site.assign_element_run.mp h
      have hPlaceCode := (Stack.straight_loadSlot .reference slot).append (straight_load hPlace)
      have hStored := (emitted_value hValue).straight_append hPlaceCode
      exact (hStored.append_straight (.single rfl rfl)).of_nil rfl rfl
  | _ => exact (select_throw_ok h).elim

/-- A jump to a label of three-address code becomes a jump to the label of that text. No number is used
up for it. -/
theorem emitted_branch {condition : Condition} {target : Label} (id : Nat)
    (h : site.branch condition target.text = .ok code) :
    Emitted id id [.branch condition target] code := by
  have hJump : ∀ i : Stack.Instr, i.label? = none → i.target? = some target.text →
      Emitted id id [.branch condition target] [i] := by
    intro i hLabel hTarget
    refine ⟨Nat.le_refl _, ?_, ?_⟩
    · rw [Stack.labels_cons, hLabel, comparisonNames_self]
      rfl
    · rw [Stack.targets_cons, hTarget]
      simp
  cases condition with
  | single o =>
      obtain ⟨_, hLoad, rfl⟩ := Site.branch_single_ok.mp h
      exact (hJump _ rfl rfl).straight_append (straight_load hLoad)
  | compare op left right =>
      obtain ⟨_, _, _, _, hLeft, hRight, rfl⟩ := Site.branch_compare_ok.mp h
      exact (hJump _ rfl rfl).straight_append ((straight_load hLeft).append (straight_load hRight))

theorem emitted_mere {i : Code.Instr} (hMere : Site.isMere i = true)
    (h : (site.instr i).run p = .ok (code, p')) :
    Emitted p.comparisons p'.comparisons [] code := by
  obtain ⟨_, hValue, rfl⟩ := (Site.instr_mere_run hMere).mp h
  exact (emitted_value hValue).append_straight (.single rfl rfl)

/-- The code of an instruction has the label and the jump of that instruction, together with what
comparisons bring in. -/
theorem emitted_instr {i : Code.Instr} (h : (site.instr i).run p = .ok (code, p')) :
    Emitted p.comparisons p'.comparisons [i] code := by
  cases i with
  | assign dest ty rhs => exact emitted_assign h
  | call kind receiver method arguments returnType =>
      obtain ⟨_, pushes, hCall, rfl⟩ := Site.callStatement_run.mp h
      rw [comparisons_call hCall]
      cases pushes with
      | true => exact .straight _ rfl ((straight_call hCall).append (.single rfl rfl))
      | false => exact .straight _ rfl (straight_call hCall)
  | putField object field ty value =>
      obtain ⟨_, _, _, _, hObject, hValue, rfl, rfl⟩ := Site.instr_putField_run.mp h
      have hOperands := (straight_load hObject).append (straight_load hValue)
      exact .straight _ rfl (hOperands.append (.single rfl rfl))
  | ret value ty =>
      obtain ⟨hRet, rfl⟩ := Site.instr_ret_run.mp h
      cases value with
      | none =>
          rw [Site.ret_none_ok.mp hRet]
          exact .straight _ rfl (.single rfl rfl)
      | some value =>
          obtain ⟨_, _, hLoad, _, rfl⟩ := Site.ret_some_ok.mp hRet
          exact .straight _ rfl ((straight_load hLoad).append (.single rfl rfl))
  | branch condition target =>
      obtain ⟨hBranch, rfl⟩ := Site.instr_branch_run.mp h
      exact emitted_branch _ hBranch
  | goto target =>
      obtain ⟨rfl, rfl⟩ := Site.instr_goto_run.mp h
      refine ⟨Nat.le_refl _, ?_, ?_⟩
      · simp [Stack.Instr.label?, Code.labels, comparisonNames_self]
      · simp [Stack.Instr.target?]
  | label l =>
      obtain ⟨rfl, rfl⟩ := Site.instr_label_run.mp h
      refine ⟨Nat.le_refl _, ?_, ?_⟩
      · simp [Stack.Instr.label?, comparisonNames_self]
      · simp [Stack.Instr.target?]
  | operand o => exact (emitted_mere rfl h).of_nil rfl rfl
  | binary op left right ty => exact (emitted_mere rfl h).of_nil rfl rfl
  | not o ty => exact (emitted_mere rfl h).of_nil rfl rfl
  | getField object field ty => exact (emitted_mere rfl h).of_nil rfl rfl

/-- The labels of a body and those of its comparisons are all labels of its code; numbers run on from one
instruction to the next. -/
theorem emitted_codeOf {source : List Code.Instr}
    (h : (codeOf site source).run p = .ok (code, p')) :
    Emitted p.comparisons p'.comparisons source code := by
  induction source generalizing p code with
  | nil =>
      obtain ⟨rfl, rfl⟩ := codeOf_nil_run.mp h
      exact .straight _ rfl .nil
  | cons i rest ih =>
      obtain ⟨_, _, _, hFirst, hRest, rfl⟩ := codeOf_cons_run.mp h
      exact (emitted_instr hFirst).append (ih hRest)

end Selection

/-- The comparisons of the methods of a class have numbers of their own, which run on from one method to
the next. -/
theorem emitted_methodBlocks {scope : ClassScope} {comparisons : Nat} {ms : List Method}
    {blocks : List Stack.Block} (h : methodBlocks scope comparisons ms = .ok blocks) :
    ∃ last, Emitted comparisons last (ms.flatMap (·.body)) (blocks.flatMap (·.body)) ∧
      ∀ block ∈ blocks, ∃ m ∈ ms, ∃ first last, Emitted first last m.body block.body := by
  induction ms generalizing comparisons blocks with
  | nil =>
      rw [methodBlocks_nil_ok.mp h]
      exact ⟨comparisons, .straight _ rfl .nil, by simp⟩
  | cons m rest ih =>
      obtain ⟨block, _, others, hBlock, hRest, rfl⟩ := methodBlocks_cons_ok.mp h
      obtain ⟨_, _, _, _, _, hBody, _, rfl, rfl⟩ := methodBlock_ok.mp hBlock
      have hFirst := emitted_codeOf hBody
      obtain ⟨last, hOthers, hEach⟩ := ih hRest
      refine ⟨last, hFirst.append hOthers, List.forall_mem_cons.mpr ⟨?_, ?_⟩⟩
      · exact ⟨m, List.mem_cons_self, _, _, hFirst⟩
      · intro block' hMem
        obtain ⟨m', hm', hEmitted⟩ := hEach block' hMem
        exact ⟨m', List.mem_cons_of_mem _ hm', hEmitted⟩

theorem straight_defaultConstructor (scope : ClassScope) :
    Straight (defaultConstructor scope).body :=
  (Stack.straight_loadSlot .reference 0).append
    (.append (.single (i := .invoke _ _) rfl rfl) (.single (i := .ret) rfl rfl))

/-- In a class that compiles, the labels of all methods together have different texts, and every
jump goes to a label that stands once, in the method of the jump. This holds of the stack code,
that of the default constructor included, and of the three-address code; and no expression or
statement, whatever its place, has code that jumps out of itself. -/
theorem jumps_resolved {withConstructor : Bool} {program : Source.Program} {unit : Code.ClassUnit}
    {superName : String} {blocks : List Stack.Block}
    (hUnit : Lowering.ofProgram withConstructor program = .ok unit)
    (hBlocks : methodBlocks (.ofUnit superName unit) 0 unit.methods = .ok blocks) :
    let bodies := (defaultConstructor (.ofUnit superName unit)).body :: blocks.map (·.body)
    let texts := (Code.labels (unit.methods.flatMap (·.body))).map Label.text
    (Stack.labels bodies.flatten).Nodup ∧
      (∀ body ∈ bodies, ∀ target ∈ Stack.targets body,
        target ∈ Stack.labels body ∧ (Stack.labels bodies.flatten).count target = 1) ∧
      texts.Nodup ∧
      (∀ m ∈ unit.methods, ∀ target ∈ Code.targets m.body,
        target ∈ Code.labels m.body ∧ texts.count target.text = 1) ∧
      (∀ scope e use fresh l fresh', (Lowering.expr scope e use).run fresh = .ok l fresh' →
        Code.Resolved l.code ∧ l.value.label? = none ∧ l.value.target? = none) ∧
      ∀ scope s fresh code fresh', (Lowering.stmt scope s).run fresh = .ok code fresh' →
        Code.Resolved code := by
  intro bodies texts
  obtain ⟨_, hLowered, hEachLowered⟩ := Lowering.ownLabels_ofProgram hUnit
  obtain ⟨_, hEmitted, hEachEmitted⟩ := emitted_methodBlocks hBlocks
  have hTexts : texts.Nodup := hLowered.nodup.map Label.text_injective
  have hConstructor := straight_defaultConstructor (.ofUnit superName unit)
  have hAll : Stack.labels bodies.flatten = Stack.labels (blocks.flatMap (·.body)) := by
    rw [List.flatten_cons, Stack.labels_append, hConstructor.labels, List.nil_append]
    rfl
  have hNodup : (Stack.labels bodies.flatten).Nodup := by
    rw [hAll]
    exact hEmitted.nodup hLowered.nodup
  refine ⟨hNodup, ?_, hTexts, ?_, ?_, ?_⟩
  · intro body hBody target hTarget
    have hOwn : target ∈ Stack.labels body := by
      rcases List.mem_cons.mp hBody with rfl | hBody
      · rw [hConstructor.targets] at hTarget
        cases hTarget
      · obtain ⟨block, hBlock, rfl⟩ := List.mem_map.mp hBody
        obtain ⟨m, hm, _, _, hCode⟩ := hEachEmitted block hBlock
        exact hCode.closed (hEachLowered m hm).closed target hTarget
    refine ⟨hOwn, List.count_eq_one_of_mem hNodup ?_⟩
    rw [Stack.labels, List.filterMap_flatten]
    exact List.mem_flatten_of_mem (List.mem_map_of_mem hBody) hOwn
  · intro m hm target hTarget
    have hOwn := (hEachLowered m hm).closed target hTarget
    refine ⟨hOwn, List.count_eq_one_of_mem hTexts (List.mem_map_of_mem ?_)⟩
    rw [Code.labels, List.filterMap_flatMap, List.mem_flatMap]
    exact ⟨m, hm, hOwn⟩
  · intro scope e use fresh l fresh' h
    exact ⟨(Lowering.ownLabels_expr h).toResolved, Lowering.straight_value h⟩
  · intro scope s fresh code fresh' h
    exact (Lowering.ownLabels_stmt h).toResolved

/-- In the class with a loop every jump of the method goes to a label of the method: both jumps back, and
the one to the end. -/
theorem spin_jumps_resolved :
    Lowering.ofProgram true Spin.program = .ok Spin.unit ∧
      methodBlocks (.ofUnit "java/lang/Object" Spin.unit) 0 Spin.unit.methods =
        .ok [⟨"static spin(Z)Z", 2, 1, Spin.body⟩] ∧
      ∀ target ∈ Stack.targets Spin.body, target ∈ Stack.labels Spin.body := by
  refine ⟨Spin.lowered, Spin.emitted _, fun target hTarget => ?_⟩
  have hResolved := jumps_resolved Spin.lowered (Spin.emitted "java/lang/Object")
  exact (hResolved.2.1 Spin.body (by simp) target hTarget).1

end MiniJava.Assembly
