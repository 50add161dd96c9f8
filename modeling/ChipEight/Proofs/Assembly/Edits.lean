import ChipEight.Assembly.SourceInstruction
import Mathlib.Data.List.Basic

/-!
# Instructions changed in place

An instruction is made by calls that change it where it stands: operands are appended, labels are
replaced by addresses, and at last it is encoded. A call that fails part of the way could leave the
instruction half changed. It never does: each call has its whole effect or none, and an operand
depends only on the additions and on the resolutions of that operand, in whichever order the
resolutions of other operands are made.
-/

namespace ChipEight

namespace SourceInstruction

/-- An action on an instruction that is changed in place. What has been changed before a failure
stays changed. -/
abbrev InPlace := ExceptT AssemblyError (StateM SourceInstruction)

/-- An action that looks at the instruction goes on with it. -/
theorem run_get_bind {α : Type} (next : SourceInstruction → InPlace α)
    (instruction : SourceInstruction) :
    (get >>= next : InPlace α).run.run instruction = (next instruction).run.run instruction :=
  rfl

/-- Appends an operand where the instruction stands. -/
def appendInPlace (token : Token) : InPlace Unit :=
  match token.value with
  | .operand operand =>
    modify fun instruction =>
      { instruction with operands := instruction.operands ++ [⟨operand, token.position⟩] }
  | other => throw (.invalidOperand .operand other token.position)

/-- Replaces the value of an operand where it stands, if it is a label with the right name. -/
def resolveInPlace (index : Nat) (name : String) (address : Nat) : InPlace Unit := do
  let some operand := (← get).operands[index]? | throw (.labelNotFound name index)
  let .label found := operand.value | throw (.labelNotFound name index)
  if found ≠ name then throw (.labelMismatch name found)
  modify fun instruction =>
    { instruction with
      operands := instruction.operands.modify index ({ · with value := .integer address }) }

/-- Finds the word of the instruction as it stands. -/
def encodeInPlace : InPlace Word := do
  match (← get).encode with
  | .ok word => return word
  | .error error => throw error

/-- What can be asked of an instruction that is changed in place. -/
inductive Call
  | add (token : Token)
  | resolve (index : Nat) (name : String) (address : Nat)
  | encode
  deriving DecidableEq, Repr

/-- What a call answers. Only an encoding answers with a word. -/
abbrev Answer := Except AssemblyError (Option Word)

namespace Call

/-- The action of a call. -/
def action : Call → InPlace (Option Word)
  | add token => do
    appendInPlace token
    return none
  | resolve index name address => do
    resolveInPlace index name address
    return none
  | encode => return some (← encodeInPlace)

/-- The answer to a call, and what has become of the instruction. -/
def perform (call : Call) (instruction : SourceInstruction) : Answer × SourceInstruction :=
  (call.action.run.run instruction).run

end Call

/-- A new instruction in the place of an old one, which stays if the new one is refused. -/
def settle (instruction : SourceInstruction) :
    Except AssemblyError SourceInstruction → Answer × SourceInstruction
  | .ok next => (.ok none, next)
  | .error error => (.error error, instruction)

/-- Appending in place has the effect of appending, or none. -/
theorem perform_add (token : Token) (instruction : SourceInstruction) :
    (Call.add token).perform instruction = settle instruction (instruction.addOperand token) := by
  obtain ⟨kind, position⟩ := token
  cases kind <;> rfl

/-- Resolving in place has the effect of resolving, or none. -/
theorem perform_resolve (index : Nat) (name : String) (address : Nat)
    (instruction : SourceInstruction) :
    (Call.resolve index name address).perform instruction =
      settle instruction (instruction.resolve index name address) := by
  simp only [Call.perform, Call.action, resolveInPlace, bind_assoc, run_get_bind, resolve]
  cases hoperand : instruction.operands[index]? with
  | none => rfl
  | some operand =>
    obtain ⟨operand, position⟩ := operand
    cases operand with
    | integer | register => rfl
    | label found =>
      by_cases hname : found = name
      · have hset : instruction.operands.modify index ({ · with value := .integer address }) =
            instruction.operands.set index ⟨.integer address, position⟩ := by
          rw [List.modify_eq_set_getElem?, hoperand]
          rfl
        simp only [hname, ne_eq, not_true_eq_false, if_false, if_true, settle]
        rw [← hset]
        rfl
      · simp only [hname, ne_eq, not_false_eq_true, if_true, if_false]
        rfl

/-- Encoding in place finds the word that the instruction has, and changes nothing. -/
theorem perform_encode (instruction : SourceInstruction) :
    Call.encode.perform instruction = (instruction.encode.map some, instruction) := by
  simp only [Call.perform, Call.action, encodeInPlace, bind_assoc, run_get_bind]
  cases instruction.encode <;> rfl

/-- What a call comes to by the functions that make a new instruction of an old one. -/
def Call.outcome (instruction : SourceInstruction) : Call → Answer × SourceInstruction
  | add token => settle instruction (instruction.addOperand token)
  | resolve index name address => settle instruction (instruction.resolve index name address)
  | encode => (instruction.encode.map some, instruction)

/-- In place, a call comes to what the function gives that makes a new instruction, and to nothing if
that function refuses. -/
theorem perform_eq_outcome (call : Call) (instruction : SourceInstruction) :
    call.perform instruction = call.outcome instruction := by
  cases call with
  | add token => exact perform_add token instruction
  | resolve index name address => exact perform_resolve index name address instruction
  | encode => exact perform_encode instruction

/-- What a call does, by its answer: a refused call does nothing, an addition appends its token, a
resolution replaces one label by an address at the label's place, and an encoding finds the word of
the instruction. -/
inductive Effect (instruction : SourceInstruction) : Call → Answer → SourceInstruction → Prop
  | refused {call : Call} {error : AssemblyError} :
      Effect instruction call (.error error) instruction
  | added {operand : Operand} {position : Position} :
      Effect instruction (.add ⟨.operand operand, position⟩) (.ok none)
        { instruction with operands := instruction.operands ++ [⟨operand, position⟩] }
  | resolved {index : Nat} {name : String} {address : Nat} {position : Position}
      (hlabel : instruction.operands[index]? = some ⟨.label name, position⟩) :
      Effect instruction (.resolve index name address) (.ok none)
        { instruction with
          operands := instruction.operands.set index ⟨.integer address, position⟩ }
  | encoded {word : Word} (hword : instruction.encode = .ok word) :
      Effect instruction .encode (.ok (some word)) instruction

/-- Every call has its whole effect or none. -/
theorem effect_perform (call : Call) (instruction : SourceInstruction) :
    Effect instruction call (call.perform instruction).1 (call.perform instruction).2 := by
  cases call with
  | add token =>
    obtain ⟨kind, position⟩ := token
    rw [perform_add]
    cases kind with
    | operand operand => exact .added
    | instruction | data | eof => exact .refused
  | resolve index name address =>
    rw [perform_resolve]
    cases hresolve : instruction.resolve index name address with
    | error error => exact .refused
    | ok next =>
      unfold resolve at hresolve
      split at hresolve
      · next found position hoperand =>
        split at hresolve
        · next hname =>
          subst hname
          cases hresolve
          exact .resolved hoperand
        · cases hresolve
      · cases hresolve
  | encode =>
    rw [perform_encode]
    cases hencode : instruction.encode with
    | error error => exact .refused
    | ok word => exact .encoded hencode

/-- The instruction after some calls, whatever they answer. -/
def after (instruction : SourceInstruction) (calls : List Call) : SourceInstruction :=
  calls.foldl (fun instruction call => (call.perform instruction).2) instruction

/-- The first call is made before the others. -/
theorem after_cons (instruction : SourceInstruction) (call : Call) (calls : List Call) :
    instruction.after (call :: calls) = (call.perform instruction).2.after calls :=
  rfl

/-- Calls can be made in two parts. -/
theorem after_append (instruction : SourceInstruction) (calls later : List Call) :
    instruction.after (calls ++ later) = (instruction.after calls).after later :=
  List.foldl_append

/-- A call leaves everything but the operands. -/
theorem Effect.fixed {instruction next : SourceInstruction} {call : Call} {answer : Answer}
    (heffect : Effect instruction call answer next) :
    next.mnemonic = instruction.mnemonic ∧ next.shape = instruction.shape ∧
      next.position = instruction.position := by
  cases heffect <;> exact ⟨rfl, rfl, rfl⟩

/-- Calls leave everything but the operands. -/
theorem fixed_after (instruction : SourceInstruction) (calls : List Call) :
    (instruction.after calls).mnemonic = instruction.mnemonic ∧
      (instruction.after calls).shape = instruction.shape ∧
      (instruction.after calls).position = instruction.position := by
  induction calls generalizing instruction with
  | nil => exact ⟨rfl, rfl, rfl⟩
  | cons call calls ih =>
    obtain ⟨hmnemonic, hshape, hposition⟩ := (effect_perform call instruction).fixed
    rw [after_cons, ← hmnemonic, ← hshape, ← hposition]
    exact ih _

/-- Instructions that differ in nothing but operands are equal if each operand is. -/
theorem eq_of_getElem?_eq {first second : SourceInstruction}
    (hmnemonic : first.mnemonic = second.mnemonic) (hshape : first.shape = second.shape)
    (hposition : first.position = second.position)
    (hoperands : ∀ index : Nat, first.operands[index]? = second.operands[index]?) :
    first = second := by
  obtain ⟨mnemonic, shape, operands, position⟩ := first
  obtain rfl := List.ext_getElem? hoperands
  cases hmnemonic
  cases hshape
  cases hposition
  rfl

section Numbers

variable {instruction next : SourceInstruction} {call : Call} {answer : Answer} {index : Nat}
  {operand : Located Operand}

/-- A call leaves every operand that is no label. -/
theorem Effect.getElem?_eq (heffect : Effect instruction call answer next)
    (hoperand : instruction.operands[index]? = some operand)
    (hnumber : ∀ name, operand.value ≠ .label name) : next.operands[index]? = some operand := by
  cases heffect with
  | refused | encoded => exact hoperand
  | added =>
    obtain ⟨hlt, _⟩ := List.getElem?_eq_some_iff.mp hoperand
    exact (List.getElem?_append_left hlt).trans hoperand
  | @resolved other name address position hlabel =>
    have hne : other ≠ index := by
      rintro rfl
      cases hoperand.symm.trans hlabel
      exact hnumber name rfl
    exact (List.getElem?_set_ne hne).trans hoperand

/-- Calls leave every operand that is no label. -/
theorem getElem?_after (hoperand : instruction.operands[index]? = some operand)
    (hnumber : ∀ name, operand.value ≠ .label name) (calls : List Call) :
    (instruction.after calls).operands[index]? = some operand := by
  induction calls generalizing instruction with
  | nil => exact hoperand
  | cons call calls ih => exact ih ((effect_perform call instruction).getElem?_eq hoperand hnumber)

/-- An operand that is no label cannot be resolved. -/
theorem perform_resolve_of_number (hoperand : instruction.operands[index]? = some operand)
    (hnumber : ∀ name, operand.value ≠ .label name) (name : String) (address : Nat) :
    (Call.resolve index name address).perform instruction =
      (.error (.labelNotFound name index), instruction) := by
  obtain ⟨value, position⟩ := operand
  rw [perform_resolve, resolve, hoperand]
  cases value with
  | integer | register => rfl
  | label found => exact absurd rfl (hnumber found)

/-- A resolved operand is a number. -/
theorem Effect.getElem?_resolved {name : String} {address : Nat}
    (heffect : Effect instruction (.resolve index name address) (.ok none) next) :
    ∃ position, next.operands[index]? = some ⟨.integer address, position⟩ := by
  cases heffect with
  | @resolved _ _ _ position hlabel =>
    obtain ⟨hlt, _⟩ := List.getElem?_eq_some_iff.mp hlabel
    exact ⟨position, List.getElem?_set_self hlt⟩

end Numbers

namespace Call

/-- Whether the operand with a number can depend on a call. -/
def concerns (index : Nat) : Call → Bool
  | add _ => true
  | resolve other _ _ => other == index
  | encode => false

/-- An operand can depend on its own resolutions. -/
@[simp]
theorem concerns_resolve_self (index : Nat) (name : String) (address : Nat) :
    (resolve index name address).concerns index = true :=
  beq_self_eq_true index

/-- No call is left of those that do not concern an operand. -/
theorem filter_concerns_eq_nil {index : Nat} {calls : List Call}
    (hother : ∀ call ∈ calls, call.concerns index = false) :
    calls.filter (·.concerns index) = [] :=
  List.filter_eq_nil_iff.mpr fun call hmem => by simp [hother call hmem]

end Call

/-- Instructions have the same operand with a number, and as many operands. -/
structure AgreesAt (index : Nat) (first second : SourceInstruction) : Prop where
  getElem?_eq : first.operands[index]? = second.operands[index]?
  length_eq : first.operands.length = second.operands.length

namespace AgreesAt

/-- Every instruction agrees with itself. -/
theorem refl (index : Nat) (instruction : SourceInstruction) :
    AgreesAt index instruction instruction :=
  ⟨rfl, rfl⟩

variable {index : Nat} {first second third : SourceInstruction}

/-- Agreement goes both ways. -/
theorem symm (hagrees : AgreesAt index first second) : AgreesAt index second first :=
  ⟨hagrees.getElem?_eq.symm, hagrees.length_eq.symm⟩

/-- Agreement is handed on. -/
theorem trans (hfirst : AgreesAt index first second) (hsecond : AgreesAt index second third) :
    AgreesAt index first third :=
  ⟨hfirst.getElem?_eq.trans hsecond.getElem?_eq, hfirst.length_eq.trans hsecond.length_eq⟩

end AgreesAt

/-- A call that does not concern an operand leaves it. -/
theorem Effect.agreesAt {instruction next : SourceInstruction} {call : Call} {answer : Answer}
    {index : Nat} (heffect : Effect instruction call answer next)
    (hother : call.concerns index = false) : AgreesAt index next instruction := by
  cases heffect with
  | refused | encoded => exact .refl index instruction
  | added => cases hother
  | @resolved other name address position hlabel =>
    have hne : other ≠ index := beq_eq_false_iff_ne.mp hother
    exact ⟨List.getElem?_set_ne hne, List.length_set⟩

/-- A resolution leaves as many operands as there were. -/
theorem Effect.length_eq {instruction next : SourceInstruction} {answer : Answer} {index : Nat}
    {name : String} {address : Nat}
    (heffect : Effect instruction (.resolve index name address) answer next) :
    next.operands.length = instruction.operands.length := by
  cases heffect with
  | refused => rfl
  | resolved => exact List.length_set

section Agreement

variable {index : Nat} {first second : SourceInstruction}

/-- What an addition appends does not depend on the instruction. -/
theorem exists_operands_add (token : Token) :
    ∃ added, ∀ instruction : SourceInstruction,
      ((Call.add token).perform instruction).2.operands = instruction.operands ++ added := by
  obtain ⟨kind, position⟩ := token
  cases kind with
  | operand operand => exact ⟨[⟨operand, position⟩], fun _ => rfl⟩
  | instruction | data | eof => exact ⟨[], fun instruction => (List.append_nil _).symm⟩

/-- What a resolution answers and leaves of its operand depends on the operand alone. -/
theorem perform_resolve_congr (hoperand : first.operands[index]? = second.operands[index]?)
    (name : String) (address : Nat) :
    ((Call.resolve index name address).perform first).1 =
        ((Call.resolve index name address).perform second).1 ∧
      ((Call.resolve index name address).perform first).2.operands[index]? =
        ((Call.resolve index name address).perform second).2.operands[index]? := by
  rw [perform_resolve, perform_resolve, resolve, resolve]
  cases hsecond : second.operands[index]? with
  | none =>
    rw [hsecond] at hoperand
    rw [hoperand]
    exact ⟨rfl, hoperand.trans hsecond.symm⟩
  | some operand =>
    rw [hsecond] at hoperand
    rw [hoperand]
    obtain ⟨operand, position⟩ := operand
    cases operand with
    | integer | register => exact ⟨rfl, hoperand.trans hsecond.symm⟩
    | label found =>
      obtain ⟨hlt, _⟩ := List.getElem?_eq_some_iff.mp hoperand
      obtain ⟨hlt', _⟩ := List.getElem?_eq_some_iff.mp hsecond
      by_cases hname : found = name
      · simp only [if_pos hname, settle]
        exact ⟨trivial, (List.getElem?_set_self hlt).trans (List.getElem?_set_self hlt').symm⟩
      · simp only [if_neg hname, settle]
        exact ⟨trivial, hoperand.trans hsecond.symm⟩

/-- A call has the same effect on an operand of instructions that agree at it. -/
theorem AgreesAt.perform (hagrees : AgreesAt index first second) (call : Call) :
    AgreesAt index (call.perform first).2 (call.perform second).2 := by
  cases call with
  | add token =>
    obtain ⟨added, hadded⟩ := exists_operands_add token
    constructor
    · rw [hadded, hadded, List.getElem?_append, List.getElem?_append, hagrees.getElem?_eq,
        hagrees.length_eq]
    · rw [hadded, hadded, List.length_append, List.length_append, hagrees.length_eq]
  | resolve other name address =>
    by_cases hother : other = index
    · subst hother
      refine ⟨(perform_resolve_congr hagrees.getElem?_eq name address).2, ?_⟩
      rw [(effect_perform _ first).length_eq, (effect_perform _ second).length_eq,
        hagrees.length_eq]
    · have hapart : (Call.resolve other name address).concerns index = false :=
        beq_false_of_ne hother
      exact ((effect_perform _ first).agreesAt hapart).trans
        (hagrees.trans ((effect_perform _ second).agreesAt hapart).symm)
  | encode =>
    rw [perform_encode, perform_encode]
    exact hagrees

/-- What becomes of an operand depends only on the calls that concern it. -/
theorem AgreesAt.after_filter (hagrees : AgreesAt index first second) (calls : List Call) :
    AgreesAt index (first.after calls) (second.after (calls.filter (·.concerns index))) := by
  induction calls generalizing first second with
  | nil => exact hagrees
  | cons call calls ih =>
    rw [after_cons]
    cases hconcerns : call.concerns index with
    | true =>
      rw [List.filter_cons_of_pos hconcerns, after_cons]
      exact ih (hagrees.perform call)
    | false =>
      rw [List.filter_cons_of_neg (Bool.not_eq_true _ ▸ hconcerns)]
      exact ih (((effect_perform call first).agreesAt hconcerns).trans hagrees)

end Agreement

/-- Calls that do not concern an operand leave it. -/
theorem agreesAt_after {index : Nat} (instruction : SourceInstruction) {calls : List Call}
    (hother : ∀ call ∈ calls, call.concerns index = false) :
    AgreesAt index (instruction.after calls) instruction := by
  have hagrees := (AgreesAt.refl index instruction).after_filter calls
  rwa [Call.filter_concerns_eq_nil hother] at hagrees

/-- Calls come to the same if for every operand those that concern it are the same, in the same
order. -/
theorem after_eq_of_filter_eq (instruction : SourceInstruction) {calls others : List Call}
    (hsame : ∀ index, calls.filter (·.concerns index) = others.filter (·.concerns index)) :
    instruction.after calls = instruction.after others := by
  obtain ⟨hmnemonic, hshape, hposition⟩ := fixed_after instruction calls
  obtain ⟨hmnemonic', hshape', hposition'⟩ := fixed_after instruction others
  refine eq_of_getElem?_eq (hmnemonic.trans hmnemonic'.symm) (hshape.trans hshape'.symm)
    (hposition.trans hposition'.symm) fun index => ?_
  have hcalls := (AgreesAt.refl index instruction).after_filter calls
  have hothers := (AgreesAt.refl index instruction).after_filter others
  rw [hsame index] at hcalls
  exact hcalls.getElem?_eq.trans hothers.getElem?_eq.symm

/-- Two calls can trade places around others: each is answered as before, and whatever follows is
asked of the same instruction. -/
structure Exchange (instruction : SourceInstruction) (first second : Call) (between : List Call) :
    Prop where
  second_answer : (second.perform (instruction.after (first :: between))).1 =
    (second.perform instruction).1
  first_answer : (first.perform (instruction.after (second :: between))).1 =
    (first.perform instruction).1
  after_eq : ∀ later, instruction.after (first :: between ++ second :: later) =
    instruction.after (second :: between ++ first :: later)

/-- Resolutions of different operands can trade places around calls that concern neither. -/
theorem exchange_resolve (instruction : SourceInstruction) {first second : Nat}
    (hne : first ≠ second) (name other : String) (address target : Nat) {between : List Call}
    (hfirst : ∀ call ∈ between, call.concerns first = false)
    (hsecond : ∀ call ∈ between, call.concerns second = false) :
    Exchange instruction (.resolve first name address) (.resolve second other target) between := by
  have hapart : (Call.resolve first name address).concerns second = false := beq_false_of_ne hne
  have hapart' : (Call.resolve second other target).concerns first = false :=
    beq_false_of_ne hne.symm
  refine ⟨?_, ?_, fun later => ?_⟩
  · have hagrees := agreesAt_after instruction (List.forall_mem_cons.mpr ⟨hapart, hsecond⟩)
    exact (perform_resolve_congr hagrees.getElem?_eq other target).1
  · have hagrees := agreesAt_after instruction (List.forall_mem_cons.mpr ⟨hapart', hfirst⟩)
    exact (perform_resolve_congr hagrees.getElem?_eq name address).1
  · refine after_eq_of_filter_eq instruction fun index => ?_
    -- At most one of the two concerns the operand, and then nothing between them does.
    rw [List.filter_append, List.filter_append, List.filter_cons, List.filter_cons,
      List.filter_cons, List.filter_cons]
    by_cases hindex : first = index
    · subst hindex
      simp [Call.filter_concerns_eq_nil hfirst, hapart']
    · have hfree : (Call.resolve first name address).concerns index = false :=
        beq_false_of_ne hindex
      by_cases hindex' : second = index
      · subst hindex'
        simp [Call.filter_concerns_eq_nil hsecond, hapart]
      · have hfree' : (Call.resolve second other target).concerns index = false :=
          beq_false_of_ne hindex'
        simp [hfree, hfree']

/-- Whatever calls have been made, the next has its whole effect or none, and it comes to what the
function gives that makes a new instruction. An operand that is no label stays as it is, so that no
operand is resolved twice. Resolutions of different operands can trade places around calls that concern
neither, and two sequences of calls come to the same instruction if for every operand they have the
same calls that concern it, in the same order. -/
theorem calls_atomic_and_independent (start : SourceInstruction) (calls : List Call) :
    (∀ call, Effect (start.after calls) call (call.perform (start.after calls)).1
      (start.after (calls ++ [call]))) ∧
    (∀ call : Call, call.perform (start.after calls) = call.outcome (start.after calls)) ∧
    (∀ (index : Nat) (operand : Located Operand),
      (start.after calls).operands[index]? = some operand →
      (∀ name, operand.value ≠ .label name) →
      ∀ later, (start.after (calls ++ later)).operands[index]? = some operand) ∧
    (∀ index name address,
      ((Call.resolve index name address).perform (start.after calls)).1 = .ok none →
      ∀ later other target, ((Call.resolve index other target).perform
        (start.after (calls ++ .resolve index name address :: later))).1 =
          .error (.labelNotFound other index)) ∧
    (∀ first second name other address target between, first ≠ second →
      (∀ call ∈ between, call.concerns first = false ∧ call.concerns second = false) →
      Exchange (start.after calls) (.resolve first name address) (.resolve second other target)
        between) ∧
    ∀ others, (∀ index, calls.filter (·.concerns index) = others.filter (·.concerns index)) →
      start.after calls = start.after others := by
  refine ⟨fun call => ?_, fun call => perform_eq_outcome call _,
    fun index operand hoperand hnumber later => ?_,
    fun index name address hanswer later other target => ?_,
    fun first second name other address target between hne hbetween =>
      exchange_resolve _ hne name other address target (fun call hmem => (hbetween call hmem).1)
        fun call hmem => (hbetween call hmem).2,
    fun others => after_eq_of_filter_eq start⟩
  · rw [after_append]
    exact effect_perform call _
  · rw [after_append]
    exact getElem?_after hoperand hnumber later
  · have heffect := effect_perform (.resolve index name address) (start.after calls)
    rw [hanswer] at heffect
    obtain ⟨position, hnumber⟩ := heffect.getElem?_resolved
    have hlater := getElem?_after hnumber (fun _ => nofun) later
    rw [after_append, after_cons, perform_resolve_of_number hlater fun _ => nofun]

/-- An instruction that uses a label twice, and another one between. -/
def usesTwoLabels : SourceInstruction :=
  ⟨.draw, .registerRegisterNibble,
    [⟨.label "a", ⟨1, 6⟩⟩, ⟨.label "b", ⟨1, 10⟩⟩, ⟨.label "a", ⟨1, 14⟩⟩], .first⟩

/-- The two uses of a label are resolved from the last to the first as from the first to the last,
around an encoding and a resolution of the operand between them. The second resolution of a use is
refused. -/
theorem calls_on_two_labels :
    usesTwoLabels.after [.resolve 2 "a" 5, .encode, .resolve 1 "b" 6, .resolve 0 "a" 5] =
      { usesTwoLabels with operands :=
        [⟨.integer 5, ⟨1, 6⟩⟩, ⟨.integer 6, ⟨1, 10⟩⟩, ⟨.integer 5, ⟨1, 14⟩⟩] } ∧
    ((Call.resolve 2 "a" 7).perform (usesTwoLabels.after
      [.resolve 2 "a" 5, .encode, .resolve 0 "a" 5])).1 = .error (.labelNotFound "a" 2) := by
  have hall := calls_atomic_and_independent usesTwoLabels []
  obtain ⟨_, _, _, honce, hexchange, _⟩ := hall
  have hapart : ∀ call ∈ [Call.encode, .resolve 1 "b" 6],
      call.concerns 2 = false ∧ call.concerns 0 = false := by
    decide
  have hexchanged := hexchange 2 0 "a" "a" 5 5 _ (by decide) hapart
  constructor
  · exact (hexchanged.after_eq []).trans rfl
  · exact honce 2 "a" 5 rfl [.encode, .resolve 0 "a" 5] "a" 7

end SourceInstruction

end ChipEight
