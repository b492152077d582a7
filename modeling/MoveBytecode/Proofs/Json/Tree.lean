import MoveBytecode.Proofs.Json.Token

/-! A tree is read from its tokens, and the tree of a value from either of the two texts of the value. -/

set_option autoImplicit false

namespace MoveBytecode.Json

open Token

namespace Tree

mutual

def tokens : Tree → List Token
  | .null => [.null]
  | .bool value => [.bool value]
  | .number literal => [.number literal]
  | .string text => [.string text]
  | .array items => .openArray :: List.intercalate [.comma] (itemTokens items) ++ [.closeArray]
  | .object members => .openObject :: List.intercalate [.comma] (memberTokens members) ++ [.closeObject]

def itemTokens : List Tree → List (List Token)
  | [] => []
  | first :: rest => first.tokens :: itemTokens rest

def memberTokens : List (Option String × Tree) → List (List Token)
  | [] => []
  | (key, value) :: rest => (.string key :: .colon :: value.tokens) :: memberTokens rest

end

theorem tokens_starts (tree : Tree) : ∃ first rest, tree.tokens = first :: rest ∧ first ≠ .closeArray := by
  cases tree <;> exact ⟨_, _, rfl, nofun⟩

theorem itemTokens_starts (first : Tree) (items : List Tree) : ∃ token rest,
    List.intercalate [.comma] (itemTokens (first :: items)) = token :: rest ∧ token ≠ .closeArray := by
  obtain ⟨token, rest, starts, other⟩ := first.tokens_starts
  cases items with
  | nil => exact ⟨token, rest, by simpa [itemTokens] using starts, other⟩
  | cons second items =>
    exact ⟨token, _, by simp only [itemTokens, List.intercalate_cons_cons, starts]; rfl, other⟩

theorem memberTokens_starts (key : Option String) (value : Tree) (members : List (Option String × Tree)) : ∃ rest,
    List.intercalate [.comma] (memberTokens ((key, value) :: members)) = .string key :: .colon :: rest := by
  cases members with
  | nil => exact ⟨_, by rw [memberTokens, memberTokens, List.intercalate_singleton]⟩
  | cons second members => exact ⟨_, by simp only [memberTokens, List.intercalate_cons_cons]; rfl⟩

mutual

/-- Two steps for each token are more than enough: the last item of a list takes one step less. -/
theorem read_tokens : ∀ (tree : Tree) (steps : Nat) (rest : List Token), 2 * tree.tokens.length ≤ steps + 1 →
    read steps (tree.tokens ++ rest) = some (tree, rest)
  | tree, 0, rest, enough => by
    obtain ⟨_, _, starts, _⟩ := tree.tokens_starts
    simp only [starts, List.length_cons] at enough
    omega
  | .null, steps + 1, rest, _ => rfl
  | .bool value, steps + 1, rest, _ => rfl
  | .number literal, steps + 1, rest, _ => rfl
  | .string text, steps + 1, rest, _ => rfl
  | .array [], steps + 1, rest, _ => rfl
  | .array (first :: items), steps + 1, rest, enough => by
    simp only [tokens, List.length_append, List.length_cons, List.length_nil] at enough
    have inner := readItems_tokens first items steps rest (by omega)
    -- The first token of an item does not close the array, so the array is not read as empty.
    obtain ⟨token, more, starts, other⟩ := itemTokens_starts first items
    rw [starts] at inner
    simp only [tokens, starts, List.append_assoc, List.cons_append, List.nil_append] at inner ⊢
    rw [read, inner]
    · rfl
    · rintro _ ⟨⟩
      exact other rfl
  | .object [], steps + 1, rest, _ => rfl
  | .object ((key, value) :: members), steps + 1, rest, enough => by
    simp only [tokens, List.length_append, List.length_cons, List.length_nil] at enough
    have inner := readMembers_tokens key value members steps rest (by omega)
    obtain ⟨more, starts⟩ := memberTokens_starts key value members
    rw [starts] at inner
    simp only [tokens, starts, List.append_assoc, List.cons_append, List.nil_append] at inner ⊢
    rw [read, inner]
    · rfl
    · nofun

theorem readItems_tokens : ∀ (first : Tree) (items : List Tree) (steps : Nat) (rest : List Token),
    2 * (List.intercalate [.comma] (itemTokens (first :: items))).length ≤ steps →
    readItems steps (List.intercalate [.comma] (itemTokens (first :: items)) ++ .closeArray :: rest) =
      some (first :: items, rest)
  | first, items, 0, rest, enough => by
    obtain ⟨_, _, starts, _⟩ := itemTokens_starts first items
    simp only [starts, List.length_cons] at enough
    omega
  | first, [], steps + 1, rest, enough => by
    simp only [itemTokens, List.intercalate_singleton] at enough ⊢
    rw [readItems, read_tokens first steps _ (by omega)]
  | first, second :: items, steps + 1, rest, enough => by
    have item := read_tokens first steps
    have others := readItems_tokens second items steps rest
    simp only [itemTokens, List.intercalate_cons_cons, List.append_assoc, List.cons_append, List.nil_append,
      List.length_append, List.length_cons] at enough item others ⊢
    rw [readItems, item _ (by omega)]
    simp only [others (by omega), Option.map_some]

theorem readMembers_tokens : ∀ (key : Option String) (value : Tree) (members : List (Option String × Tree)) (steps : Nat)
    (rest : List Token),
    2 * (List.intercalate [.comma] (memberTokens ((key, value) :: members))).length ≤ steps →
    readMembers steps (List.intercalate [.comma] (memberTokens ((key, value) :: members)) ++ .closeObject :: rest) =
      some ((key, value) :: members, rest)
  | key, value, members, 0, rest, enough => by
    obtain ⟨_, starts⟩ := memberTokens_starts key value members
    simp only [starts, List.length_cons] at enough
    omega
  | key, value, [], steps + 1, rest, enough => by
    simp only [memberTokens, List.intercalate_singleton, List.length_cons, List.cons_append] at enough ⊢
    rw [readMembers, read_tokens value steps _ (by omega)]
  | key, value, (key', second) :: members, steps + 1, rest, enough => by
    have item := read_tokens value steps
    have others := readMembers_tokens key' second members steps rest
    simp only [memberTokens, List.intercalate_cons_cons, List.append_assoc, List.cons_append, List.nil_append,
      List.length_append, List.length_cons] at enough item others ⊢
    rw [readMembers, item _ (by omega)]
    simp only [others (by omega), Option.map_some]

end

end Tree

mutual

def tree : Json → Tree
  | .null => .null
  | .bool value => .bool value
  | .number value => .number value.literal
  | .string value => .string (some value)
  | .array items => .array (itemTrees items)
  | .object members => .object (memberTrees members)

def itemTrees : List Json → List Tree
  | [] => []
  | first :: rest => first.tree :: itemTrees rest

def memberTrees : List (String × Json) → List (Option String × Tree)
  | [] => []
  | (key, value) :: rest => (some key, value.tree) :: memberTrees rest

end

theorem writes_null : Writes "null".toList [.null] := fun _ _ _ spells =>
  spells.cons ⟨'n', _, rfl, rfl⟩ rfl

theorem writes_bool (value : Bool) : Writes (boolWord value) [.bool value] := fun _ _ _ spells => by
  cases value
  · exact spells.cons ⟨'f', _, rfl, rfl⟩ rfl
  · exact spells.cons ⟨'t', _, rfl, rfl⟩ rfl

theorem writes_member {key : String} {gap part : List Char} {tokens : List Token} (dark : ∀ c ∈ gap, isBlank c = true)
    (writes : Writes part tokens) :
    Writes (quoted key ++ ':' :: (gap ++ part)) (.string (some key) :: .colon :: tokens) := by
  intro rest after ends spells
  have value : Spells (':' :: (gap ++ (part ++ rest))) (.colon :: (tokens ++ after)) :=
    .mark rfl rfl ((writes _ _ ends spells).blanks dark)
  have named := writes_quoted key _ _ (endsNumber_cons (.inr (by decide)) _) value
  simpa only [List.append_assoc, List.cons_append, List.nil_append] using named

theorem blank_newLine (depth : Nat) : ∀ c ∈ newLine depth, isBlank c = true := by
  intro c member
  rcases List.mem_cons.mp member with rfl | member
  · rfl
  · rw [List.eq_of_mem_replicate member]
    rfl

theorem writes_joined {opening closing : Char} {opens closes : Token} (brackets : Brackets opening closing opens closes)
    {parts : List (List Char)} {tokenLists : List (List Token)} (written : List.Forall₂ Writes parts tokenLists) :
    Writes (opening :: List.intercalate [','] parts ++ [closing])
      (opens :: List.intercalate [.comma] tokenLists ++ [closes]) := by
  have enclosed := @writes_enclosed _ _ _ _ brackets [] [] nofun nofun _ _ written
  rwa [List.append_nil] at enclosed

theorem writes_block {opening closing : Char} {opens closes : Token} (brackets : Brackets opening closing opens closes)
    (depth : Nat) {parts : List (List Char)} {tokenLists : List (List Token)}
    (written : List.Forall₂ Writes parts tokenLists) :
    Writes (block depth opening closing parts) (opens :: List.intercalate [.comma] tokenLists ++ [closes]) := by
  unfold block
  split
  · next empty =>
    cases List.isEmpty_iff.mp empty
    exact writes_joined brackets written
  · exact writes_enclosed brackets (blank_newLine (depth + 1)) (blank_newLine depth) written

mutual

theorem writes_compact : ∀ json : Json, Writes json.compact json.tree.tokens
  | .null => writes_null
  | .bool value => writes_bool value
  | .number value => writes_number value
  | .string value => writes_quoted value
  | .array items => writes_joined .array (writes_compactItems items)
  | .object members => writes_joined .object (writes_compactMembers members)

theorem writes_compactItems : ∀ items : List Json,
    List.Forall₂ Writes (compactItems items) (Tree.itemTokens (itemTrees items))
  | [] => .nil
  | first :: rest => .cons (writes_compact first) (writes_compactItems rest)

theorem writes_compactMembers : ∀ members : List (String × Json),
    List.Forall₂ Writes (compactMembers members) (Tree.memberTokens (memberTrees members))
  | [] => .nil
  | (_, value) :: rest => .cons (@writes_member _ [] _ _ nofun (writes_compact value)) (writes_compactMembers rest)

end

mutual

theorem writes_prettyAt : ∀ (depth : Nat) (json : Json), Writes (prettyAt depth json) json.tree.tokens
  | _, .null => writes_null
  | _, .bool value => writes_bool value
  | _, .number value => writes_number value
  | _, .string value => writes_quoted value
  | depth, .array items => writes_block .array depth (writes_prettyItems (depth + 1) items)
  | depth, .object members => writes_block .object depth (writes_prettyMembers (depth + 1) members)

theorem writes_prettyItems : ∀ (depth : Nat) (items : List Json),
    List.Forall₂ Writes (prettyItems depth items) (Tree.itemTokens (itemTrees items))
  | _, [] => .nil
  | depth, first :: rest => .cons (writes_prettyAt depth first) (writes_prettyItems depth rest)

theorem writes_prettyMembers : ∀ (depth : Nat) (members : List (String × Json)),
    List.Forall₂ Writes (prettyMembers depth members) (Tree.memberTokens (memberTrees members))
  | _, [] => .nil
  | depth, (_, value) :: rest =>
    .cons (@writes_member _ [' '] _ _ (by simp [isBlank]) (writes_prettyAt depth value)) (writes_prettyMembers depth rest)

end

theorem Tree.ofText?_of_writes {text : List Char} {tree : Tree} (writes : Writes text tree.tokens) :
    Tree.ofText? (String.ofList text) = some tree := by
  have spells := writes [] [] nofun spells_nil
  rw [List.append_nil, List.append_nil] at spells
  have read := Tree.read_tokens tree (2 * tree.tokens.length) [] (by omega)
  rw [List.append_nil] at read
  simp [Tree.ofText?, Token.ofText?, spells.read _ spells.short, read]

theorem ofText?_compactText (json : Json) : Tree.ofText? json.compactText = some json.tree :=
  Tree.ofText?_of_writes (writes_compact json)

theorem ofText?_prettyText (json : Json) : Tree.ofText? json.prettyText = some json.tree :=
  Tree.ofText?_of_writes (writes_prettyAt 0 json)

end MoveBytecode.Json
