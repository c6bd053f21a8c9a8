import RunGrammar.Json.Quoted
import RunGrammar.Json.Token

/-! JSON values, with their texts and their tokens. A reader that sees one token after the other
keeps the lists and objects that are still open, and behind each token it knows what may follow. It
reads a value from the tokens of that value and from no others. -/
namespace RunGrammar.Json

inductive Value
  | number (n : Nat)
  | string (text : String)
  | list (items : List Value)
  | object (members : List (String × Value))

namespace Value

theorem sizeOf_item_lt {v : Value} {items : List Value} (h : v ∈ items) :
    sizeOf v < sizeOf (list items) := by
  have hlt := List.sizeOf_lt_of_mem h
  rw [list.sizeOf_spec]
  omega

theorem sizeOf_member_lt {m : String × Value} {members : List (String × Value)}
    (h : m ∈ members) : sizeOf m.2 < sizeOf (object members) := by
  have hlt := List.sizeOf_lt_of_mem h
  rw [Prod.mk.sizeOf_spec] at hlt
  rw [object.sizeOf_spec]
  omega

/-- What holds of the items of a list and of the values in an object holds of all values. -/
@[induction_eliminator]
theorem induction {motive : Value → Prop} (number : ∀ n, motive (.number n))
    (string : ∀ text, motive (.string text))
    (list : ∀ items, (∀ v ∈ items, motive v) → motive (.list items))
    (object : ∀ members, (∀ m ∈ members, motive m.2) → motive (.object members)) (v : Value) :
    motive v :=
  match v with
  | .number n => number n
  | .string text => string text
  | .list items => list items fun v _ => induction number string list object v
  | .object members => object members fun m _ => induction number string list object m.2
termination_by v
decreasing_by
  · exact sizeOf_item_lt ‹_›
  · exact sizeOf_member_lt ‹_›

/-- The text of a value, without blanks. -/
def render : Value → String
  | number n => n.repr
  | string text => quoted text
  | list items => "[" ++ ",".intercalate (items.map render) ++ "]"
  | object members =>
    "\x7b" ++ ",".intercalate (members.map fun m => quoted m.1 ++ (":" ++ m.2.render)) ++ "\x7d"
decreasing_by
  · exact sizeOf_item_lt ‹_›
  · exact sizeOf_member_lt ‹_›

/-- The tokens of a value. -/
def tokens : Value → List Token
  | number n => [.number n]
  | string text => [.string text]
  | list items => .openBracket :: ([.comma].intercalate (items.map tokens) ++ [.closeBracket])
  | object members =>
    .openBrace :: ([.comma].intercalate
      (members.map fun m => .string m.1 :: .colon :: m.2.tokens) ++ [.closeBrace])
decreasing_by
  · exact sizeOf_item_lt ‹_›
  · exact sizeOf_member_lt ‹_›

end Value

/-! ## Reading -/

/-- A list or an object that is still open, with what has been read of it. -/
inductive Frame
  | list (items : List Value)
  | object (members : List (String × Value)) (name : String)

/-- What has to follow a token, inside the frames that are open there. -/
inductive Reader
  | value (frames : List Frame)
  | name (frames : List Frame) (members : List (String × Value))
  | colon (frames : List Frame) (members : List (String × Value)) (name : String)
  | separator (frames : List Frame) (v : Value)

namespace Reader

/-- Reads the next token. A list or an object may end at once, but not behind a comma. -/
def next? : Reader → Token → Option Reader
  | .value frames, .number n => some (.separator frames (.number n))
  | .value frames, .string text => some (.separator frames (.string text))
  | .value frames, .openBracket => some (.value (.list [] :: frames))
  | .value frames, .openBrace => some (.name frames [])
  | .value (.list [] :: frames), .closeBracket => some (.separator frames (.list []))
  | .name frames [], .closeBrace => some (.separator frames (.object []))
  | .name frames members, .string key => some (.colon frames members key)
  | .colon frames members key, .colon => some (.value (.object members key :: frames))
  | .separator (.list items :: frames) v, .comma => some (.value (.list (items ++ [v]) :: frames))
  | .separator (.list items :: frames) v, .closeBracket =>
    some (.separator frames (.list (items ++ [v])))
  | .separator (.object members key :: frames) v, .comma =>
    some (.name frames (members ++ [(key, v)]))
  | .separator (.object members key :: frames) v, .closeBrace =>
    some (.separator frames (.object (members ++ [(key, v)])))
  | _, _ => none

def run? (r : Reader) : List Token → Option Reader
  | [] => some r
  | t :: ts => (r.next? t).bind (run? · ts)

theorem run?_append (r : Reader) (ts ts' : List Token) :
    r.run? (ts ++ ts') = (r.run? ts).bind (run? · ts') := by
  induction ts generalizing r with
  | nil => rfl
  | cons t ts ih =>
    rw [List.cons_append, run?, run?, Option.bind_assoc]
    exact Option.bind_congr fun r' _ => ih r'

/-- The value that has been read, if no frame is open. -/
def value? : Reader → Option Value
  | .separator [] v => some v
  | _ => none

theorem value?_eq_some_iff {r : Reader} {v : Value} :
    r.value? = some v ↔ r = .separator [] v := by
  cases r with
  | separator frames u => cases frames <;> simp [value?]
  | value | name | colon => simp [value?]

end Reader

/-- The value that a text writes. -/
def decode? (text : List Char) : Option Value := do
  let tokens ← tokens? text
  let r ← (Reader.value []).run? tokens
  r.value?

/-- Whether tokens are read as a value wherever one may stand. -/
def Reads (ts : List Token) (v : Value) : Prop :=
  ∀ frames, (Reader.value frames).run? ts = some (.separator frames v)

variable {ts : List Token} {v : Value}

/-- The parts of a list or of an object are read one by one, up to the token that closes it. -/
theorem Reader.run?_separated {α : Type} {xs : List α} {f : α → List Token} {close : Token}
    (start : List α → Reader) (behind : List α → α → Reader) (done : List α → Reader)
    (hread : ∀ x ∈ xs, ∀ before, (start before).run? (f x) = some (behind before x))
    (hcomma : ∀ before x, (behind before x).next? .comma = some (start (before ++ [x])))
    (hclose : ∀ before x, (behind before x).next? close = some (done (before ++ [x])))
    (hne : xs ≠ []) (before : List α) :
    (start before).run? ([.comma].intercalate (xs.map f) ++ [close]) =
      some (done (before ++ xs)) := by
  induction xs generalizing before with
  | nil => exact absurd rfl hne
  | cons x xs ih =>
    obtain ⟨hx, hxs⟩ := List.forall_mem_cons.mp hread
    cases xs with
    | nil =>
      rw [List.map_cons, List.map_nil, List.intercalate_singleton, run?_append, hx,
        Option.bind_some, run?, hclose]
      rfl
    | cons y xs =>
      have hrest := ih hxs (List.cons_ne_nil _ _) (before ++ [x])
      rw [List.append_assoc, List.singleton_append] at hrest
      rw [List.map_cons, List.map_cons, List.intercalate_cons_cons, List.append_assoc,
        List.append_assoc, run?_append, hx, Option.bind_some, List.singleton_append, run?, hcomma]
      exact hrest

/-- Every value is read back from its tokens. -/
theorem Value.reads (v : Value) : Reads v.tokens v := by
  induction v with
  | number n =>
    intro frames
    rw [tokens]
    rfl
  | string text =>
    intro frames
    rw [tokens]
    rfl
  | list items ih =>
    intro frames
    rw [tokens]
    cases items with
    | nil => rfl
    | cons v items =>
      exact Reader.run?_separated (fun before => .value (.list before :: frames))
        (fun before => .separator (.list before :: frames)) (fun items => .separator frames (.list items))
        (fun v hv before => ih v hv _) (fun _ _ => rfl) (fun _ _ => rfl) (List.cons_ne_nil _ _) []
  | object members ih =>
    intro frames
    rw [tokens]
    cases members with
    | nil => rfl
    | cons m members =>
      -- A key is read in front of the first member as it is behind a comma.
      have hread : ∀ m' ∈ m :: members, ∀ before, (Reader.name frames before).run?
          (.string m'.1 :: .colon :: m'.2.tokens) =
            some (.separator (.object before m'.1 :: frames) m'.2) := by
        intro m' hm' before
        cases before <;> exact ih m' hm' _
      exact Reader.run?_separated (.name frames)
        (fun before m => .separator (.object before m.1 :: frames) m.2)
        (fun members => .separator frames (.object members)) hread (fun _ _ => rfl) (fun _ _ => rfl)
        (List.cons_ne_nil _ _) []

/-! ## What has been read -/

/-- Items, each of them with a comma behind it. -/
def itemTokens (items : List Value) : List Token := items.flatMap fun v => v.tokens ++ [.comma]

/-- Members, each of them with a comma behind it. -/
def memberTokens (members : List (String × Value)) : List Token :=
  members.flatMap fun m => .string m.1 :: .colon :: m.2.tokens ++ [.comma]

def Frame.tokens : Frame → List Token
  | list items => .openBracket :: itemTokens items
  | object members name => .openBrace :: (memberTokens members ++ [.string name, .colon])

/-- The tokens up to the place where the innermost frame goes on. -/
def openTokens : List Frame → List Token
  | [] => []
  | frame :: frames => openTokens frames ++ frame.tokens

/-- The tokens that lead to what a reader has read. -/
def Reader.tokens : Reader → List Token
  | value frames => openTokens frames
  | name frames members => openTokens frames ++ .openBrace :: memberTokens members
  | colon frames members key =>
    openTokens frames ++ .openBrace :: (memberTokens members ++ [.string key])
  | separator frames v => openTokens frames ++ v.tokens

theorem intercalate_concat {α : Type} (f : α → List Token) (xs : List α) (x : α) :
    [Token.comma].intercalate ((xs ++ [x]).map f) =
      xs.flatMap (fun x => f x ++ [.comma]) ++ f x := by
  induction xs with
  | nil => simp
  | cons y xs ih =>
    rw [List.flatMap_cons, List.append_assoc, ← ih]
    cases xs <;> simp

@[simp] theorem itemTokens_nil : itemTokens [] = [] := rfl

@[simp] theorem itemTokens_concat (items : List Value) (v : Value) :
    itemTokens (items ++ [v]) = itemTokens items ++ (v.tokens ++ [.comma]) := by
  simp [itemTokens]

@[simp] theorem memberTokens_nil : memberTokens [] = [] := rfl

@[simp] theorem memberTokens_concat (members : List (String × Value)) (key : String) (v : Value) :
    memberTokens (members ++ [(key, v)]) =
      memberTokens members ++ .string key :: .colon :: (v.tokens ++ [.comma]) := by
  simp [memberTokens]

namespace Value

@[simp] theorem tokens_number (n : Nat) : (number n).tokens = [.number n] := by rw [tokens]

@[simp] theorem tokens_string (text : String) : (string text).tokens = [.string text] := by
  rw [tokens]

@[simp] theorem tokens_list_nil : (list []).tokens = [.openBracket, .closeBracket] := by
  rw [tokens]
  rfl

@[simp] theorem tokens_list_concat (items : List Value) (v : Value) :
    (list (items ++ [v])).tokens =
      .openBracket :: (itemTokens items ++ (v.tokens ++ [.closeBracket])) := by
  rw [tokens, intercalate_concat, List.append_assoc]
  rfl

@[simp] theorem tokens_object_nil : (object []).tokens = [.openBrace, .closeBrace] := by
  rw [tokens]
  rfl

@[simp] theorem tokens_object_concat (members : List (String × Value)) (key : String) (v : Value) :
    (object (members ++ [(key, v)])).tokens = .openBrace ::
      (memberTokens members ++ .string key :: .colon :: (v.tokens ++ [.closeBrace])) := by
  rw [tokens, intercalate_concat, List.append_assoc]
  rfl

end Value

namespace Reader

/-- A token is read behind those that have been read before. -/
theorem tokens_next? {r r' : Reader} {t : Token} (h : r.next? t = some r') :
    r'.tokens = r.tokens ++ [t] := by
  -- One case for each line of the reader; the last one refuses the token.
  unfold next? at h
  split at h
  case h_13 => cases h
  all_goals
    obtain rfl := Option.some.inj h
    simp [tokens, openTokens, Frame.tokens]

theorem tokens_run? {r r' : Reader} (h : r.run? ts = some r') : r'.tokens = r.tokens ++ ts := by
  induction ts generalizing r with
  | nil =>
    obtain rfl := Option.some.inj h
    exact (List.append_nil _).symm
  | cons t ts ih =>
    obtain ⟨r₁, hnext, hrun⟩ := Option.bind_eq_some_iff.mp h
    rw [ih hrun, tokens_next? hnext, List.append_assoc, List.singleton_append]

/-- A value is read from its own tokens and from no others. -/
theorem run?_eq_some_iff : (value []).run? ts = some (.separator [] v) ↔ ts = v.tokens := by
  constructor
  · intro h
    exact (tokens_run? h).symm
  · rintro rfl
    exact v.reads []

end Reader

/-- A text decodes to a value exactly if it is cut into the tokens of the value. -/
theorem decode?_eq_some_iff {text : List Char} :
    decode? text = some v ↔ tokens? text = some v.tokens := by
  simp only [decode?, Option.bind_eq_bind, Option.bind_eq_some_iff, Reader.value?_eq_some_iff]
  constructor
  · rintro ⟨ts, htokens, r, hrun, rfl⟩
    rw [htokens, Reader.run?_eq_some_iff.mp hrun]
  · exact fun htokens => ⟨_, htokens, _, Reader.run?_eq_some_iff.mpr rfl, rfl⟩

end RunGrammar.Json
