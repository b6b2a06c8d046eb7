import PolyCheck.Interner
import PolyCheck.Proofs.Name

/-! Handles through all the calls made to an interner. A call enters one string, its own or a minted
name. What is in the tables stays there, and the new entry goes to both, so they remain inverse to
each other; equal handles then mean equal strings. A minted name ends with a number that is used
once, so only a name written by hand could be the same. -/
namespace PolyCheck.Interner

variable {table : Interner} {symbol : Symbol} {text : String}

section Tables

def Inverse (table : Interner) : Prop :=
  ∀ text symbol, table.get? text = some symbol ↔ table.resolve? symbol = some text

theorem inverse_empty (supply : NameSupply) : Inverse ⟨#[], .empty, supply⟩ := by
  intro text symbol
  simp [get?, resolve?, Table.get?, Table.empty]

theorem Inverse.supply (inverse : table.Inverse) (supply : NameSupply) :
    Inverse { table with supply } := inverse

theorem resolve?_size (table : Interner) : table.resolve? ⟨table.size⟩ = none := by
  simp [resolve?, size]

theorem resolve?_intern_of_some (found : table.resolve? symbol = some text) (entered : String) :
    (table.intern entered).2.resolve? symbol = some text := by
  rw [intern]
  split
  · exact found
  · obtain ⟨inside, same⟩ := Array.getElem?_eq_some_iff.mp found
    simp [resolve?, Array.getElem?_push, inside, same, Nat.ne_of_lt inside]

theorem get?_intern (table : Interner) (entered : String) :
    (table.intern entered).2.get? entered = some (table.intern entered).1 := by
  rw [intern]
  split
  · assumption
  · simp [get?]

theorem Inverse.intern (inverse : table.Inverse) (entered : String) :
    (table.intern entered).2.Inverse := by
  rw [Interner.intern]
  split
  · exact inverse
  · rename_i new
    intro text symbol
    have handles : Table.get? (table.symbols.insert entered ⟨table.strings.size⟩) text =
        if text = entered then some ⟨table.strings.size⟩ else table.get? text :=
          Table.get?_insert _ _ _ _
    rw [get?, resolve?, handles, Array.getElem?_push]
    by_cases last : symbol.id = table.strings.size
    · obtain rfl : symbol = ⟨table.strings.size⟩ := congrArg Symbol.mk last
      have absent : table.get? text ≠ some ⟨table.strings.size⟩ := fun found =>
        Option.some_ne_none _ (((inverse _ _).mp found).symm.trans table.resolve?_size)
      simp [absent, eq_comm]
    · have other : (⟨table.strings.size⟩ : Symbol) ≠ symbol :=
        fun same => last (congrArg Symbol.id same).symm
      rw [if_neg last]
      by_cases same : text = entered
      · subst same
        have absent : table.resolve? symbol ≠ some text := fun found =>
          Option.some_ne_none _ (((inverse _ _).mpr found).symm.trans new)
        simpa [other, resolve?] using absent
      · rw [if_neg same]
        exact inverse text symbol

theorem size_intern_le (table : Interner) (entered : String) :
    (table.intern entered).2.size ≤ table.size + 1 := by
  rw [intern]
  split
  · exact Nat.le_succ _
  · simp [size]

theorem inverse_initial : initial.Inverse := by
  have enters : ∀ (texts : List String) (table : Interner), table.Inverse →
      (texts.foldl (fun table text => (table.intern text).2) table).Inverse := by
    intro texts
    induction texts with
    | nil => exact fun _ => id
    | cons text texts ih => exact fun table inverse => ih _ (inverse.intern text)
  exact enters _ _ (inverse_empty _)

end Tables

section Calls

/-- What can be asked of an interner, besides looking at it. -/
inductive Call where
  | intern (text : String)
  | fresh (stem : String)
deriving DecidableEq

def Call.isFresh : Call → Bool
  | intern _ => false
  | fresh _ => true

def call (table : Interner) : Call → Symbol × Interner
  | .intern text => table.intern text
  | .fresh stem => table.fresh stem

/-- The calls with the handles that they give, one after the other, and the tables after them. -/
def trace (table : Interner) : List Call → List (Call × Symbol) × Interner
  | [] => ([], table)
  | call :: calls =>
    let (symbol, table) := table.call call
    let (answers, table) := trace table calls
    ((call, symbol) :: answers, table)

theorem trace_cons (table : Interner) (call : Call) (calls : List Call) :
    table.trace (call :: calls) =
    ((call, (table.call call).1) :: ((table.call call).2.trace calls).1,
      ((table.call call).2.trace calls).2) := rfl

def Call.enters (supply : NameSupply) : Call → String × NameSupply
  | intern text => (text, supply)
  | fresh stem => supply.mint stem

theorem call_eq_intern (table : Interner) (call : Call) :
    table.call call =
      { table with supply := (call.enters table.supply).2 }.intern
      (call.enters table.supply).1 := by
  cases call <;> rfl

@[simp] theorem supply_intern (table : Interner) (entered : String) :
    (table.intern entered).2.supply = table.supply := by
  rw [intern]
  split <;> rfl

theorem supply_call (table : Interner) (call : Call) :
    (table.call call).2.supply = (call.enters table.supply).2 := by
  rw [call_eq_intern, supply_intern]

theorem Inverse.call (inverse : table.Inverse) (call : Call) : (table.call call).2.Inverse := by
  rw [call_eq_intern]
  exact (inverse.supply _).intern _

theorem resolve?_call_of_some (found : table.resolve? symbol = some text) (call : Call) :
    (table.call call).2.resolve? symbol = some text := by
  rw [call_eq_intern]
  have found : resolve? { table with supply := (call.enters table.supply).2 } symbol =
    some text := found
  exact resolve?_intern_of_some found _

theorem Inverse.resolve?_call (inverse : table.Inverse) (call : Call) :
    (table.call call).2.resolve? (table.call call).1 = some (call.enters table.supply).1 := by
  refine (inverse.call call _ _).mp ?_
  rw [call_eq_intern]
  exact get?_intern _ _

theorem Inverse.trace (inverse : table.Inverse) (calls : List Call) :
    (table.trace calls).2.Inverse := by
  induction calls generalizing table with
  | nil => exact inverse
  | cons call calls ih => exact ih (inverse.call call)

theorem resolve?_trace_of_some (found : table.resolve? symbol = some text) (calls : List Call) :
    (table.trace calls).2.resolve? symbol = some text := by
  induction calls generalizing table with
  | nil => exact found
  | cons call calls ih => exact ih (resolve?_call_of_some found call)

theorem size_trace_le (table : Interner) (calls : List Call) :
    (table.trace calls).2.size ≤ table.size + calls.length := by
  induction calls generalizing table with
  | nil => exact Nat.le_refl _
  | cons call calls ih =>
    have rest := ih (table.call call).2
    have first : (table.call call).2.size ≤ table.size + 1 := by
      rw [call_eq_intern]
      exact size_intern_le _ _
    rw [trace_cons, List.length_cons]
    change ((table.call call).2.trace calls).2.size ≤ _
    omega

theorem next_trace (table : Interner) (calls : List Call) :
    (table.trace calls).2.supply.next = table.supply.next + calls.countP Call.isFresh := by
  induction calls generalizing table with
  | nil => rfl
  | cons call calls ih =>
    rw [trace_cons, ih, supply_call, List.countP_cons]
    cases call with
    | intern text => rfl
    | fresh stem =>
      simp only [Call.enters, NameSupply.mint_next, Call.isFresh, if_true]
      omega

theorem Inverse.resolve?_of_mem_trace (inverse : table.Inverse) {calls : List Call}
    (member : (.intern text, symbol) ∈ (table.trace calls).1) :
    (table.trace calls).2.resolve? symbol = some text := by
  induction calls generalizing table with
  | nil => cases member
  | cons call calls ih =>
    rcases List.mem_cons.mp member with here | later
    · obtain ⟨rfl, rfl⟩ := Prod.mk.inj here
      exact resolve?_trace_of_some (inverse.resolve?_call (.intern text)) calls
    · exact ih (inverse.call call) later

end Calls

section Fresh

variable {supply : NameSupply} {first call : Call} {calls : List Call}

/-- Interned strings are not spelled like minted names, and the stems of minted ones end before the
number. -/
def Call.Proper : Call → Prop
  | intern text => text.toList.head? ≠ some '%'
  | fresh stem => IsStem stem

/-- What the string of a later call is not: minted with a number that was used up. -/
def Call.Avoids (supply : NameSupply) (text : String) (call : Call) : Prop :=
  (∃ stem index, IsStem stem ∧ index < supply.next ∧ text = "%" ++ stem ++ toString index) ∨
    call.isFresh = true ∧ text.toList.head? ≠ some '%'

/-- The string of a call is none that the calls before it entered, when one of the two is minted. -/
theorem Call.enters_ne (proper : call.Proper) (avoids : call.Avoids supply text) :
    (call.enters supply).1 ≠ text := by
  cases call with
  | intern entered =>
    rcases avoids with ⟨stem, index, -, -, rfl⟩ | ⟨isFresh, -⟩
    · rintro rfl
      simp [Proper] at proper
    · cases isFresh
  | fresh stem =>
    rcases avoids with ⟨stem', index, plain, used, rfl⟩ | ⟨-, written⟩
    · intro same
      obtain ⟨-, rfl⟩ := minted_inj proper plain same
      exact Nat.lt_irrefl _ used
    · rintro rfl
      simp [enters, NameSupply.mint] at written

theorem Call.next_le_enters (supply : NameSupply) (call : Call) :
    supply.next ≤ (call.enters supply).2.next := by
  cases call with
  | intern text => exact Nat.le_refl _
  | fresh stem => exact Nat.le_succ _

theorem Inverse.ne_of_mem_trace (inverse : table.Inverse) (proper : ∀ call ∈ calls, call.Proper)
    (held : table.resolve? symbol = some text) {answer : Call × Symbol}
    (member : answer ∈ (table.trace calls).1)
    (avoids : answer.1.Avoids table.supply text) : symbol ≠ answer.2 := by
  induction calls generalizing table with
  | nil => cases member
  | cons call calls ih =>
    obtain ⟨here, others⟩ := List.forall_mem_cons.mp proper
    rcases List.mem_cons.mp member with rfl | later
    · rintro rfl
      have same := (inverse.resolve?_call call).symm.trans (resolve?_call_of_some held call)
      exact Call.enters_ne here avoids (Option.some.inj same)
    · refine ih (inverse.call call) others (resolve?_call_of_some held call) later
        (avoids.imp_left ?_)
      rintro ⟨stem, index, plain, used, same⟩
      rw [supply_call]
      exact ⟨stem, index, plain, used.trans_le (call.next_le_enters _), same⟩

theorem Inverse.pairwise_trace (inverse : table.Inverse) (proper : ∀ call ∈ calls, call.Proper) :
    (table.trace calls).1.Pairwise fun earlier later =>
      earlier.1.isFresh = true ∨ later.1.isFresh = true → earlier.2 ≠ later.2 := by
  induction calls generalizing table with
  | nil => exact .nil
  | cons call calls ih =>
    obtain ⟨here, others⟩ := List.forall_mem_cons.mp proper
    refine .cons (fun answer member minted => ?_) (ih (inverse.call call) others)
    refine (inverse.call call).ne_of_mem_trace others (inverse.resolve?_call call) member ?_
    rw [supply_call]
    cases call with
    | intern text => exact .inr ⟨minted.resolve_left Bool.false_ne_true, here⟩
    | fresh stem => exact .inl ⟨stem, table.supply.next, here, Nat.lt_succ_self _, rfl⟩

end Fresh

/-- After any calls the tables are inverse to each other, a string has the handle that was given for
it, and handles keep their strings through all further calls. Minted names have handles of their
own. Handles count the strings, and the supply counts the names minted, so 32 bits hold both as long
as there are no more calls than handles beside the built-in ones. -/
theorem handles_exact (calls : List Call) :
    let (answers, table) := initial.trace calls
    table.Inverse ∧
      (∀ text symbol, (.intern text, symbol) ∈ answers →
        table.resolve? symbol = some text ∧ table.get? text = some symbol) ∧
      (∀ text text' symbol symbol', (.intern text, symbol) ∈ answers →
        (.intern text', symbol') ∈ answers → (symbol = symbol' ↔ text = text')) ∧
      (∀ symbol text more, table.resolve? symbol = some text →
        (table.trace more).2.resolve? symbol = some text) ∧
      ((∀ text, .intern text ∈ calls → text.toList.head? ≠ some '%') →
        (∀ stem, .fresh stem ∈ calls → ∀ c ∈ stem.toList, c.isDigit = false) →
        answers.Pairwise fun earlier later =>
          earlier.1.isFresh = true ∨ later.1.isFresh = true → earlier.2 ≠ later.2) ∧
      (∀ symbol text, table.resolve? symbol = some text → symbol.id < builtinNames.length +
        calls.length) ∧
      table.supply.next = calls.countP Call.isFresh ∧
      (builtinNames.length + calls.length ≤ 2 ^ 32 →
        (∀ symbol text, table.resolve? symbol = some text → symbol.id < 2 ^ 32) ∧
        table.supply.next < 2 ^ 32) := by
  have inverse := inverse_initial.trace calls
  have counted : ∀ symbol text, (initial.trace calls).2.resolve? symbol = some text →
      symbol.id < builtinNames.length + calls.length := by
    intro symbol text found
    obtain ⟨inside, -⟩ := Array.getElem?_eq_some_iff.mp found
    exact inside.trans_le (size_trace_le initial calls)
  have minted : (initial.trace calls).2.supply.next = calls.countP Call.isFresh :=
    (next_trace initial calls).trans (Nat.zero_add _)
  have given : ∀ {text symbol}, (.intern text, symbol) ∈ (initial.trace calls).1 →
      (initial.trace calls).2.resolve? symbol = some text :=
        fun member => inverse_initial.resolve?_of_mem_trace member
  refine ⟨inverse, fun text symbol member => ⟨given member, (inverse _ _).mpr (given member)⟩, ?_,
    fun symbol text more found => resolve?_trace_of_some found more, ?_, counted, minted,
    fun few => ?_⟩
  · intro text text' symbol symbol' member member'
    constructor
    · rintro rfl
      exact Option.some.inj ((given member).symm.trans (given member'))
    · rintro rfl
      have handle := (inverse _ _).mpr (given member)
      exact Option.some.inj (handle.symm.trans ((inverse _ _).mpr (given member')))
  · intro written plain
    refine inverse_initial.pairwise_trace fun call member => ?_
    cases call with
    | intern text => exact written text member
    | fresh stem => exact plain stem member
  · refine ⟨fun symbol text found => (counted symbol text found).trans_le few, ?_⟩
    have fewer : calls.countP Call.isFresh ≤ calls.length := List.countP_le_length
    have some : 0 < builtinNames.length := by decide
    rw [minted]
    omega

/-- Names minted from one stem and from two, with strings interned in between. -/
theorem handles_exact_interleaved :
    let calls : List Call := [.fresh "m", .intern "m0", .fresh "f", .fresh "m", .intern "m0"]
    (∀ text, .intern text ∈ calls → text.toList.head? ≠ some '%') ∧
      (∀ stem, .fresh stem ∈ calls → ∀ c ∈ stem.toList, c.isDigit = false) ∧
      (initial.trace calls).1.Pairwise fun earlier later =>
        earlier.1.isFresh = true ∨ later.1.isFresh = true → earlier.2 ≠ later.2 := by
  intro calls
  have written : ∀ text, .intern text ∈ calls → text.toList.head? ≠ some '%' := by simp [calls]
  have plain : ∀ stem, .fresh stem ∈ calls → ∀ c ∈ stem.toList, c.isDigit = false := by simp [calls]
  obtain ⟨-, -, -, -, apart, -⟩ := handles_exact calls
  exact ⟨written, plain, apart written plain⟩

end PolyCheck.Interner
