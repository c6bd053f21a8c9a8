import RunGrammar.Scanner

/-! Actions on tagged runs. Every run is offered to the actions registered under its tags, in
the order of the runs and, within one run, of the names. An input that does not fit the
alphabet is refused before the first action. -/
namespace RunGrammar

/-- At most one action for each tag name. -/
structure TagActions (α : Type) where
  actions : Std.ExtTreeMap String α := ∅

/-- An action with what it is called on. -/
structure Call (α : Type) where
  action : α
  tag : String
  first : Nat
  length : Nat
  symbols : List Symbol
deriving DecidableEq

namespace TagActions

variable {α : Type}

/-- Registers an action, in place of an earlier one for the same tag. -/
def insert (t : TagActions α) (name : String) (action : α) : TagActions α :=
  ⟨t.actions.insert name action⟩

/-- Registers actions one after the other. -/
def ofList (l : List (String × α)) : TagActions α :=
  l.foldl (fun t (name, action) => t.insert name action) {}

def contains (t : TagActions α) (name : String) : Bool := t.actions.contains name

def get? (t : TagActions α) (name : String) : Option α := t.actions[name]?

/-- The calls for one run. -/
def calls (t : TagActions α) (input : List Symbol) (r : Run) : List (Call α) :=
  r.tags.toList.filterMap fun tag =>
    (t.get? tag).map fun action => ⟨action, tag, r.first, r.length, (r.slice? input).getD []⟩

/-- The action registered last is the one that is called. -/
theorem get?_insert (t : TagActions α) (name other : String) (action : α) :
    (t.insert name action).get? other = if name = other then some action else t.get? other := by
  simp [get?, insert, Std.ExtTreeMap.getElem?_insert]

end TagActions

/-- Calls the actions on all runs of an input. -/
def Automaton.apply {α : Type} (a : Automaton) (t : TagActions α) (input : List Symbol) :
    Except RangeError (List (Call α)) :=
  (a.runs input).map fun runs => runs.flatMap (t.calls input)

end RunGrammar
