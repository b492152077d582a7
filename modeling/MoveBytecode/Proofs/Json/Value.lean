import MoveBytecode.Proofs.Json.Tree
import MoveBytecode.Proofs.Lookup

/-! A value that was read is read again from its text as it is, apart from doubles whose shortest decimal is taken for
another double. -/

set_option autoImplicit false

namespace MoveBytecode.Json

/-! ## The order of members -/

section
variable {key : String} {value : Json} {members : List (String × Json)} {member : String × Json}

/-- Members by the order of their keys, no key twice. -/
def Sorted (members : List (String × Json)) : Prop := members.Pairwise fun first second => first.1 < second.1

theorem mem_of_mem_insertMember (inside : member ∈ insertMember key value members) :
    member = (key, value) ∨ member ∈ members := by
  induction members with
  | nil => exact .inl (List.mem_singleton.mp inside)
  | cons first rest ih =>
    rw [insertMember] at inside
    split at inside
    · exact List.mem_cons.mp inside
    · split at inside
      · exact (List.mem_cons.mp inside).imp_right (List.mem_cons_of_mem _)
      · rcases List.mem_cons.mp inside with rfl | later
        · exact .inr List.mem_cons_self
        · exact (ih later).imp_right (List.mem_cons_of_mem _)

theorem Sorted.insertMember (sorted : Sorted members) (key : String) (value : Json) :
    Sorted (insertMember key value members) := by
  induction members with
  | nil => exact List.pairwise_singleton _ _
  | cons first rest ih =>
    -- The key goes before the first member, takes its place or goes behind it.
    obtain ⟨least, others⟩ := List.pairwise_cons.mp sorted
    rw [Json.insertMember]
    split
    · next before =>
      refine List.pairwise_cons.mpr ⟨fun member inside => ?_, sorted⟩
      rcases List.mem_cons.mp inside with rfl | later
      · exact before
      · exact lt_trans before (least member later)
    · next notBefore =>
      split
      · next same =>
        subst same
        exact List.pairwise_cons.mpr ⟨least, others⟩
      · next other =>
        have behind : first.1 < key := lt_of_le_of_ne (not_lt.mp notBefore) (Ne.symm other)
        refine List.pairwise_cons.mpr ⟨fun member inside => ?_, ih others⟩
        rcases mem_of_mem_insertMember inside with rfl | later
        · exact behind
        · exact least member later

theorem insertMember_last (behind : ∀ member ∈ members, member.1 < key) (value : Json) :
    insertMember key value members = members ++ [(key, value)] := by
  induction members with
  | nil => rfl
  | cons first rest ih =>
    obtain ⟨before, others⟩ := List.forall_mem_cons.mp behind
    rw [insertMember, if_neg (lt_asymm before), if_neg (ne_of_gt before), ih others]
    rfl

theorem sortMembers_eq (members : List (String × Json)) : sortMembers members =
    members.foldl (fun sorted member => Json.insertMember member.1 member.2 sorted) [] := rfl

theorem sorted_sortMembers (members : List (String × Json)) : Sorted (sortMembers members) := by
  suffices kept : ∀ sorted, Sorted sorted →
      Sorted (members.foldl (fun sorted member => Json.insertMember member.1 member.2 sorted) sorted) from
    kept [] List.Pairwise.nil
  induction members with
  | nil => exact fun _ sorted => sorted
  | cons first rest ih => exact fun before sorted => ih _ (sorted.insertMember first.1 first.2)

theorem mem_of_mem_sortMembers (inside : member ∈ sortMembers members) : member ∈ members := by
  rw [sortMembers_eq] at inside
  suffices kept : ∀ sorted,
      member ∈ members.foldl (fun sorted member => Json.insertMember member.1 member.2 sorted) sorted →
      member ∈ sorted ∨ member ∈ members from
    (kept [] inside).resolve_left nofun
  clear inside
  induction members with
  | nil => exact fun _ inside => .inl inside
  | cons first rest ih =>
    intro sorted inside
    rcases ih _ inside with before | later
    · rcases mem_of_mem_insertMember before with rfl | before
      · exact .inr List.mem_cons_self
      · exact .inl before
    · exact .inr (List.mem_cons_of_mem _ later)

theorem lookup_insertMember (key : String) (value : Json) (members : List (String × Json)) (other : String) :
    (insertMember key value members).lookup other = if other = key then some value else members.lookup other := by
  have put (rest : List (String × Json)) : ((key, value) :: rest).lookup other =
      if other = key then some value else rest.lookup other := by
    split
    · next same => rw [same, List.lookup_cons_self]
    · next apart => exact lookup_cons_of_ne apart
  induction members with
  | nil => exact put []
  | cons first rest ih =>
    -- Behind a member with a lower key the lookup goes on as it would without it.
    rw [insertMember]
    split
    · exact put _
    · split
      · next same =>
        rw [put]
        split
        · rfl
        · next apart =>
          have elsewhere : other ≠ first.1 := same ▸ apart
          exact (lookup_cons_of_ne elsewhere).symm
      · next distinct =>
        rw [List.lookup_cons, List.lookup_cons, ih]
        split
        · next here => rw [if_neg (beq_iff_eq.mp here ▸ Ne.symm distinct)]
        · rfl

theorem lookup_sortMembers (members : List (String × Json)) (key : String) :
    (sortMembers members).lookup key = lastValue? members key := by
  suffices kept : ∀ sorted : List (String × Json),
      (members.foldl (fun sorted member => Json.insertMember member.1 member.2 sorted) sorted).lookup key =
        (lastValue? members key).or (sorted.lookup key) by
    rw [sortMembers_eq, kept [], List.lookup_nil, Option.or_none]
  induction members with
  | nil => exact fun _ => rfl
  | cons first rest ih =>
    intro sorted
    rw [List.foldl_cons, ih, lookup_insertMember, lastValue?_cons, Option.or_assoc]
    by_cases same : key = first.1 <;> simp [same]

theorem sortMembers_of_sorted (sorted : Sorted members) : sortMembers members = members := by
  -- The members that were inserted so far stand in front, and each next one comes behind them.
  suffices kept : ∀ before, Sorted (before ++ members) →
      members.foldl (fun sorted member => Json.insertMember member.1 member.2 sorted) before = before ++ members from
    kept [] sorted
  clear sorted
  induction members with
  | nil => exact fun before _ => (List.append_nil before).symm
  | cons first rest ih =>
    intro before sorted
    have behind : ∀ member ∈ before, member.1 < first.1 := fun member inside =>
      (List.pairwise_append.mp sorted).2.2 member inside first List.mem_cons_self
    rw [List.foldl_cons, insertMember_last behind]
    simpa using ih (before ++ [first]) (by simpa using sorted)

end

/-! ## Values that were read -/

/-- What a value is that was read: its objects are sorted and its whole numbers fit. -/
inductive Settled : Json → Prop where
  | null : Settled .null
  | bool (value : Bool) : Settled (.bool value)
  | number {value : Number} (fits : value.Fits) : Settled (.number value)
  | string (value : String) : Settled (.string value)
  | array {items : List Json} (all : ∀ item ∈ items, Settled item) : Settled (.array items)
  | object {members : List (String × Json)} (sorted : Sorted members) (all : ∀ member ∈ members, Settled member.2) :
      Settled (.object members)

theorem Tree.membersDepth_le {members : List (Option String × Tree)} {bound : Nat} :
    membersDepth members ≤ bound ↔ ∀ member ∈ members, member.2.depth ≤ bound := by
  induction members with
  | nil => simp [membersDepth]
  | cons first rest ih => simp [membersDepth, ih]

theorem itemTrees_eq_map (items : List Json) : itemTrees items = items.map tree := by
  induction items with
  | nil => rfl
  | cons first rest ih => rw [itemTrees, ih, List.map_cons]

theorem memberTrees_eq_map (members : List (String × Json)) :
    memberTrees members = members.map fun member => (some member.1, member.2.tree) := by
  induction members with
  | nil => rfl
  | cons first rest ih => rw [memberTrees, ih, List.map_cons]

theorem membersDepth_le {members : List (String × Json)} {bound : Nat} :
    Tree.membersDepth (memberTrees members) ≤ bound ↔ ∀ member ∈ members, member.2.tree.depth ≤ bound := by
  rw [Tree.membersDepth_le, memberTrees_eq_map, List.forall_mem_map]

mutual

/-- A value that is read is settled and no deeper than its tree, whose object may have had a key twice. -/
theorem settled_of_json? : ∀ {tree : Tree} {json : Json}, tree.json? = some json →
    json.Settled ∧ json.tree.depth ≤ tree.depth
  | .null, _, rfl => ⟨.null, le_rfl⟩
  | .bool value, _, rfl => ⟨.bool value, le_rfl⟩
  | .number literal, json, read => by
    obtain ⟨number, value, rfl⟩ := Option.map_eq_some_iff.mp read
    exact ⟨.number (Number.fits_of_number? value), le_rfl⟩
  | .string text, json, read => by
    obtain ⟨value, _, rfl⟩ := Option.map_eq_some_iff.mp read
    exact ⟨.string value, le_rfl⟩
  | .array items, json, read => by
    obtain ⟨jsons, values, rfl⟩ := Option.map_eq_some_iff.mp read
    have inner := settled_of_items? values
    exact ⟨.array inner.1, Nat.succ_le_succ inner.2⟩
  | .object members, json, read => by
    obtain ⟨pairs, values, rfl⟩ := Option.map_eq_some_iff.mp read
    have inner := settled_of_members? values
    -- Sorting may drop members, but it adds none.
    refine ⟨.object (sorted_sortMembers pairs) fun member inside => inner.1 member (mem_of_mem_sortMembers inside), ?_⟩
    refine Nat.succ_le_succ (membersDepth_le.mpr fun member inside => ?_)
    exact membersDepth_le.mp inner.2 member (mem_of_mem_sortMembers inside)

theorem settled_of_items? : ∀ {items : List Tree} {jsons : List Json}, Tree.items? items = some jsons →
    (∀ json ∈ jsons, json.Settled) ∧ Tree.itemsDepth (itemTrees jsons) ≤ Tree.itemsDepth items
  | [], _, rfl => ⟨nofun, le_rfl⟩
  | first :: rest, jsons, read => by
    simp only [Tree.items?, Option.bind_eq_bind, Option.bind_eq_some_iff, Option.pure_def, Option.some.injEq] at read
    obtain ⟨json, value, others, values, rfl⟩ := read
    have head := settled_of_json? value
    have tail := settled_of_items? values
    exact ⟨List.forall_mem_cons.mpr ⟨head.1, tail.1⟩, max_le_max head.2 tail.2⟩

theorem settled_of_members? : ∀ {members : List (Option String × Tree)} {pairs : List (String × Json)},
    Tree.members? members = some pairs →
    (∀ pair ∈ pairs, pair.2.Settled) ∧ Tree.membersDepth (memberTrees pairs) ≤ Tree.membersDepth members
  | [], _, rfl => ⟨nofun, le_rfl⟩
  | (key, first) :: rest, pairs, read => by
    simp only [Tree.members?, Option.bind_eq_bind, Option.bind_eq_some_iff, Option.pure_def, Option.some.injEq] at read
    obtain ⟨name, _, json, value, others, values, rfl⟩ := read
    have head := settled_of_json? value
    have tail := settled_of_members? values
    exact ⟨List.forall_mem_cons.mpr ⟨head.1, tail.1⟩, max_le_max head.2 tail.2⟩

end

/-! ## Reading a written value -/

mutual

def reread? : Json → Option Json
  | .number value => value.reread?.map .number
  | .array items => (rereadItems? items).map .array
  | .object members => (rereadMembers? members).map .object
  | json => some json

def rereadItems? : List Json → Option (List Json)
  | [] => some []
  | first :: rest => do return (← first.reread?) :: (← rereadItems? rest)

def rereadMembers? : List (String × Json) → Option (List (String × Json))
  | [] => some []
  | (key, first) :: rest => do return (key, ← first.reread?) :: (← rereadMembers? rest)

end

mutual

/-- Whether every double in a value is the one that its text is read as. -/
def exact : Json → Bool
  | .number (.double negative magnitude) => (Number.double negative magnitude).reread? = some (.double negative magnitude)
  | .array items => exactItems items
  | .object members => exactMembers members
  | _ => true

def exactItems : List Json → Bool
  | [] => true
  | first :: rest => first.exact && exactItems rest

def exactMembers : List (String × Json) → Bool
  | [] => true
  | (_, first) :: rest => first.exact && exactMembers rest

end

theorem keys_of_rereadMembers? {members pairs : List (String × Json)} (read : rereadMembers? members = some pairs) :
    pairs.map Prod.fst = members.map Prod.fst := by
  induction members generalizing pairs with
  | nil =>
    cases read
    rfl
  | cons first rest ih =>
    simp only [rereadMembers?, Option.bind_eq_bind, Option.bind_eq_some_iff, Option.pure_def, Option.some.injEq] at read
    obtain ⟨_, _, others, values, rfl⟩ := read
    rw [List.map_cons, List.map_cons, ih values]

theorem Sorted.reread {members pairs : List (String × Json)} (sorted : Sorted members)
    (read : rereadMembers? members = some pairs) : Sorted pairs := by
  have keys := List.pairwise_map.mpr sorted
  rw [← keys_of_rereadMembers? read] at keys
  exact List.pairwise_map.mp keys

theorem items?_itemTrees {items : List Json} (each : ∀ item ∈ items, item.tree.json? = item.reread?) :
    Tree.items? (itemTrees items) = rereadItems? items := by
  induction items with
  | nil => rfl
  | cons first rest ih =>
    obtain ⟨head, tail⟩ := List.forall_mem_cons.mp each
    rw [itemTrees, Tree.items?, rereadItems?, head, ih tail]

theorem members?_memberTrees {members : List (String × Json)}
    (each : ∀ member ∈ members, member.2.tree.json? = member.2.reread?) :
    Tree.members? (memberTrees members) = rereadMembers? members := by
  induction members with
  | nil => rfl
  | cons first rest ih =>
    obtain ⟨head, tail⟩ := List.forall_mem_cons.mp each
    rw [memberTrees, Tree.members?, rereadMembers?, head, ih tail]
    rfl

theorem Settled.json?_tree {json : Json} (settled : json.Settled) : json.tree.json? = json.reread? := by
  induction settled with
  | null | bool | number | string => rfl
  | array all ih => rw [tree, Tree.json?, reread?, items?_itemTrees ih]
  | @object members sorted all ih =>
    rw [tree, Tree.json?, reread?, members?_memberTrees ih]
    cases read : rereadMembers? members with
    | none => rfl
    | some pairs => rw [Option.map_some, Option.map_some, sortMembers_of_sorted (sorted.reread read)]

theorem rereadItems?_of_exact {items : List Json} (each : ∀ item ∈ items, item.exact = true → item.reread? = some item)
    (same : exactItems items = true) : rereadItems? items = some items := by
  induction items with
  | nil => rfl
  | cons first rest ih =>
    obtain ⟨head, tail⟩ := List.forall_mem_cons.mp each
    obtain ⟨head', tail'⟩ := Bool.and_eq_true_iff.mp same
    rw [rereadItems?, head head', ih tail tail']
    rfl

theorem rereadMembers?_of_exact {members : List (String × Json)}
    (each : ∀ member ∈ members, member.2.exact = true → member.2.reread? = some member.2)
    (same : exactMembers members = true) : rereadMembers? members = some members := by
  induction members with
  | nil => rfl
  | cons first rest ih =>
    obtain ⟨head, tail⟩ := List.forall_mem_cons.mp each
    obtain ⟨head', tail'⟩ := Bool.and_eq_true_iff.mp same
    rw [rereadMembers?, head head', ih tail tail']
    rfl

theorem Settled.reread?_of_exact {json : Json} (settled : json.Settled) (same : json.exact = true) :
    json.reread? = some json := by
  induction settled with
  | null | bool | string => rfl
  | @number value fits =>
    cases value with
    | integer value => rw [reread?, Number.reread?_integer fits, Option.map_some]
    | double negative magnitude => rw [reread?, of_decide_eq_true same, Option.map_some]
  | array all ih => rw [reread?, rereadItems?_of_exact ih same, Option.map_some]
  | object sorted all ih => rw [reread?, rereadMembers?_of_exact ih same, Option.map_some]

end MoveBytecode.Json
