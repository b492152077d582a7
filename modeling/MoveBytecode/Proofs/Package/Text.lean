import MoveBytecode.Proofs.Json.Value
import MoveBytecode.Proofs.Package.Edit

/-! The text of a package holds the package: reading it gives back everything but doubles among the members that are not
its own, which come back as the doubles that their texts are read as. -/

set_option autoImplicit false

namespace MoveBytecode

open Json (Tree)

namespace Manifest

def ownKeys : List String := ["modules", "dependencies", "digest"]

/-- What the further members of a manifest are that was read. -/
structure Sound (manifest : Manifest) : Prop where
  sorted : Json.Sorted manifest.extra
  foreign : ∀ member ∈ manifest.extra, member.1 ∉ ownKeys
  settled : ∀ member ∈ manifest.extra, member.2.Settled
  shallow : ∀ member ∈ manifest.extra, member.2.tree.depth < Tree.maxDepth

/-- How a manifest comes of the members of an object: each of its own ones is given once at most, and the others become
the further ones, in the order of their keys. -/
structure ReadFrom (manifest : Manifest) (members : List (String × Tree)) : Prop where
  once : ((members.filter fun member => ownKeys.contains member.1).map Prod.fst).Nodup
  modules : (members.lookup "modules").bind Tree.strings? = some manifest.modules
  dependencies : Tree.fieldOr [] Tree.strings? (members.lookup "dependencies") = some manifest.dependencies
  digest : Tree.fieldOr [] Tree.bytes? (members.lookup "digest") = some manifest.digest
  further : ∃ extra, manifest.extra = Json.sortMembers extra ∧
    List.Forall₂ (fun member further => member.1 = further.1 ∧ member.2.json? = some further.2)
      (members.filter fun member => !ownKeys.contains member.1) extra

/-- What the text of a manifest is read as. -/
def reread (manifest : Manifest) : Except Failure Manifest :=
  during .parsingManifest <| someOr (.of .json) do
    return { manifest with extra := ← Json.rereadMembers? manifest.extra }

variable {manifest : Manifest} {text : String}

section
variable {names : List String} {key : String} {value : Tree} {pairs others : List (String × Tree)}
  {known : Dictionary Tree}

/-- The pairs of the given names, each of which comes once, and the others. -/
structure Dealt (names : List String) (pairs : List (String × Tree)) (known : Dictionary Tree)
    (others : List (String × Tree)) : Prop where
  own : known = pairs.filter fun pair => names.contains pair.1
  foreign : others = pairs.filter fun pair => !names.contains pair.1
  once : (known.map Prod.fst).Nodup

theorem dealt_cons_known (named : names.contains key = true) : Dealt names ((key, value) :: pairs) known others ↔
    ∃ known', Dealt names pairs known' others ∧ key ∉ known'.map Prod.fst ∧ known = (key, value) :: known' := by
  constructor
  · intro dealt
    obtain ⟨rfl, rfl, once⟩ := dealt
    simp only [List.filter_cons, named, if_true] at once ⊢
    obtain ⟨fresh, once⟩ := List.nodup_cons.mp once
    exact ⟨_, ⟨rfl, rfl, once⟩, fresh, rfl⟩
  · intro dealt
    obtain ⟨_, ⟨rfl, rfl, once⟩, fresh, rfl⟩ := dealt
    exact ⟨(List.filter_cons_of_pos (by simpa using named)).symm, (List.filter_cons_of_neg (by simpa using named)).symm,
      List.nodup_cons.mpr ⟨fresh, once⟩⟩

theorem dealt_cons_other (foreign : names.contains key = false) : Dealt names ((key, value) :: pairs) known others ↔
    ∃ others', Dealt names pairs known others' ∧ others = (key, value) :: others' := by
  constructor
  · intro dealt
    obtain ⟨rfl, rfl, once⟩ := dealt
    simp only [List.filter_cons, foreign] at once ⊢
    exact ⟨_, ⟨rfl, rfl, once⟩, rfl⟩
  · intro dealt
    obtain ⟨_, ⟨rfl, rfl, once⟩, rfl⟩ := dealt
    exact ⟨(List.filter_cons_of_neg (by simpa using foreign)).symm,
      (List.filter_cons_of_pos (by simpa using foreign)).symm, once⟩

theorem partition?_pairs : Tree.partition? names (pairs.map fun pair => (some pair.1, pair.2)) = some (known, others) ↔
    Dealt names pairs known others := by
  induction pairs generalizing known others with
  | nil =>
    constructor
    · intro parted
      cases parted
      exact ⟨rfl, rfl, List.nodup_nil⟩
    · intro dealt
      obtain ⟨rfl, rfl, _⟩ := dealt
      rfl
  | cons pair pairs ih =>
    obtain ⟨key, value⟩ := pair
    simp only [List.map_cons, Tree.partition?, Option.bind_eq_bind, Option.bind_some, Option.bind_eq_some_iff,
      Prod.exists, ih, Dictionary.value?, lookup_isSome_iff]
    cases named : names.contains key with
    | true =>
      rw [dealt_cons_known named]
      simp [eq_comm]
    | false =>
      rw [dealt_cons_other named]
      simp [eq_comm]

theorem exists_pairs {members : List (Option String × Tree)}
    (parted : Tree.partition? names members = some (known, others)) :
    ∃ pairs : List (String × Tree), members = pairs.map fun pair => (some pair.1, pair.2) := by
  induction members generalizing known others with
  | nil => exact ⟨[], rfl⟩
  | cons first rest ih =>
    obtain ⟨key?, value⟩ := first
    obtain ⟨key, rfl, parted⟩ := Option.bind_eq_some_iff.mp parted
    obtain ⟨_, parted, _⟩ := Option.bind_eq_some_iff.mp parted
    obtain ⟨pairs, rfl⟩ := ih parted
    exact ⟨(key, value) :: pairs, rfl⟩

theorem partition?_eq_some {members : List (Option String × Tree)} :
    Tree.partition? names members = some (known, others) ↔ ∃ pairs : List (String × Tree),
      members = pairs.map (fun pair => (some pair.1, pair.2)) ∧ Dealt names pairs known others := by
  constructor
  · intro parted
    obtain ⟨pairs, rfl⟩ := exists_pairs parted
    exact ⟨pairs, rfl, partition?_pairs.mp parted⟩
  · intro parts
    obtain ⟨pairs, rfl, dealt⟩ := parts
    exact partition?_pairs.mpr dealt

end

theorem readFrom_of_ofText (read : ofText text = .ok manifest) : ∃ members : List (String × Tree),
    Tree.ofText? text = some (.object (members.map fun member => (some member.1, member.2))) ∧
      (∀ member ∈ members, member.2.depth < Tree.maxDepth) ∧ manifest.ReadFrom members := by
  simp only [ofText, during_eq_ok, someOr_eq_ok, Option.bind_eq_bind, Option.bind_eq_some_iff] at read
  obtain ⟨tree, shape, read⟩ := read
  split at read
  · next shallow =>
    cases tree with
    | object members =>
      simp only [ofTree?, Option.bind_eq_bind, Option.bind_eq_some_iff, Option.pure_def, Option.some.injEq] at read
      obtain ⟨⟨known, others⟩, parted, extra, values, held, found, _, modules, _, dependencies, _, digest, rfl⟩ := read
      obtain ⟨members, rfl, rfl, rfl, distinct⟩ := partition?_eq_some.mp parted
      have find (key : String) (own : ownKeys.contains key = true) :
          Dictionary.value? (members.filter fun member => ownKeys.contains member.1) key = members.lookup key :=
        (lookup_filter ownKeys.contains key).trans (if_pos own)
      refine ⟨members, shape, fun member inside => ?_, ⟨distinct, ?_, ?_, ?_, extra, rfl, ?_⟩⟩
      · exact Nat.lt_succ_of_le (Json.Tree.membersDepth_le.mp (Nat.le_of_lt_succ shallow) (some member.1, member.2)
          (List.mem_map_of_mem inside))
      · exact Option.bind_eq_some_iff.mpr ⟨held, (find "modules" rfl).symm.trans found, modules⟩
      · exact find "dependencies" rfl ▸ dependencies
      · exact find "digest" rfl ▸ digest
      · refine (Steps.mapM_eq_some.mp values).imp fun member further made => ?_
        obtain ⟨value, read, ⟨⟩⟩ := Option.bind_eq_some_iff.mp made
        exact ⟨rfl, read⟩
    | null | bool | number | string | array => cases read
  · cases read

theorem sound_of_ofText (read : ofText text = .ok manifest) : manifest.Sound := by
  obtain ⟨members, _, shallow, parts⟩ := readFrom_of_ofText read
  obtain ⟨extra, same, further⟩ := parts.further
  -- What is known of a member comes from the tree that it was read from.
  have origin : ∀ member ∈ manifest.extra, member.1 ∉ ownKeys ∧
      ∃ tree, (member.1, tree) ∈ members ∧ tree.json? = some member.2 := by
    rw [same]
    intro member inside
    obtain ⟨⟨key, tree⟩, among, rfl, made⟩ := Steps.exists_of_mem_right further (Json.mem_of_mem_sortMembers inside)
    obtain ⟨among, strange⟩ := List.mem_filter.mp among
    exact ⟨by simpa using strange, tree, among, made⟩
  refine ⟨same ▸ Json.sorted_sortMembers extra, fun member inside => (origin member inside).1, fun member inside => ?_,
    fun member inside => ?_⟩
  · obtain ⟨_, tree, _, made⟩ := origin member inside
    exact (Json.settled_of_json? made).1
  · obtain ⟨_, tree, among, made⟩ := origin member inside
    exact (Json.settled_of_json? made).2.trans_lt (shallow _ among)

theorem partition?_foreign {names : List String} {members : List (String × Json)}
    (foreign : ∀ member ∈ members, member.1 ∉ names) :
    Tree.partition? names (Json.memberTrees members) = some ([], members.map fun member => (member.1, member.2.tree)) := by
  have strange : ∀ member ∈ members.map (fun member => (member.1, member.2.tree)), names.contains member.1 = false :=
    List.forall_mem_map.mpr fun member inside => by simpa using foreign member inside
  rw [Json.memberTrees_eq_map]
  refine partition?_eq_some.mpr ⟨members.map fun member => (member.1, member.2.tree), ?_, ?_, ?_, List.nodup_nil⟩
  · rw [List.map_map]
    rfl
  · exact (List.filter_eq_nil_iff.mpr fun member inside => Bool.eq_false_iff.mp (strange member inside)).symm
  · exact (List.filter_eq_self.mpr fun member inside => congrArg not (strange member inside)).symm

theorem strings?_ofTexts (texts : List String) : (Json.ofTexts texts).tree.strings? = some texts := by
  change (Json.itemTrees (texts.map .string)).mapM Tree.string? = some texts
  rw [Json.itemTrees_eq_map, List.map_map, Steps.mapM_eq_some, List.forall₂_map_left_iff]
  exact List.forall₂_same.mpr fun text _ => rfl

theorem byte?_ofNat (byte : UInt8) : (Json.ofNat byte.toNat).tree.byte? = some byte := by
  have small := byte.toNat_lt
  have wide : 256 ≤ Nat.pow 2 64 := by decide
  have fits : (Json.Number.integer byte.toNat).Fits := ⟨by omega, by omega⟩
  have read : (Json.Number.integer byte.toNat).literal.number? = _ := Json.Number.reread?_integer fits
  rw [Json.ofNat, Json.tree, Tree.byte?, read]
  simp only [Int.toNat_natCast, UInt8.ofNat_toNat]
  rw [if_pos (by omega)]

theorem bytes?_digest (digest : List UInt8) :
    (Json.array (digest.map fun byte => .ofNat byte.toNat)).tree.bytes? = some digest := by
  change (Json.itemTrees (digest.map fun byte => .ofNat byte.toNat)).mapM Tree.byte? = some digest
  rw [Json.itemTrees_eq_map, List.map_map, Steps.mapM_eq_some, List.forall₂_map_left_iff]
  exact List.forall₂_same.mpr fun byte _ => byte?_ofNat byte

theorem mapM_json? {members : List (String × Json)} (settled : ∀ member ∈ members, member.2.Settled) :
    ((members.map fun member => (member.1, member.2.tree)).mapM fun (key, value) => do return (key, ← value.json?)) =
      Json.rereadMembers? members := by
  induction members with
  | nil => rfl
  | cons first rest ih =>
    obtain ⟨head, tail⟩ := List.forall_mem_cons.mp settled
    rw [List.map_cons, List.mapM_cons, ih tail, Json.rereadMembers?]
    simp only [head.json?_tree]
    cases first.2.reread? <;> rfl

theorem depth_json (sound : manifest.Sound) : manifest.json.tree.depth ≤ Tree.maxDepth := by
  have flat {items : List Json} (leaves : ∀ item ∈ items, item.tree.depth = 0) :
      Tree.itemsDepth (Json.itemTrees items) = 0 := by
    induction items with
    | nil => rfl
    | cons first rest ih =>
      obtain ⟨head, tail⟩ := List.forall_mem_cons.mp leaves
      rw [Json.itemTrees, Tree.itemsDepth, head, ih tail, Nat.max_self]
  have texts (texts : List String) : (Json.ofTexts texts).tree.depth = 1 :=
    congrArg Nat.succ (flat (List.forall_mem_map.mpr fun _ _ => rfl))
  have bytes : (Json.array (manifest.digest.map fun byte => .ofNat byte.toNat)).tree.depth = 1 :=
    congrArg Nat.succ (flat (List.forall_mem_map.mpr fun _ _ => rfl))
  refine Nat.succ_le_of_lt (Nat.lt_of_le_of_lt (Json.membersDepth_le.mpr fun member inside => ?_) (Nat.lt_succ_self 126))
  rcases List.mem_append.mp inside with own | further
  · simp only [List.mem_cons, List.not_mem_nil, or_false] at own
    rcases own with rfl | rfl | rfl
    · exact (texts _).trans_le (by decide)
    · exact (texts _).trans_le (by decide)
    · exact bytes.trans_le (by decide)
  · exact Nat.le_of_lt_succ (sound.shallow member further)

theorem ofTree?_json (sound : manifest.Sound) : ofTree? manifest.json.tree = do
    return { manifest with extra := ← Json.rereadMembers? manifest.extra } := by
  have parted : Tree.partition? ownKeys (Json.memberTrees manifest.extra) = _ := partition?_foreign sound.foreign
  have known : Tree.partition? ownKeys (Json.memberTrees ([("modules", Json.ofTexts manifest.modules),
      ("dependencies", .ofTexts manifest.dependencies),
      ("digest", .array (manifest.digest.map fun byte => .ofNat byte.toNat))] ++ manifest.extra)) =
      some ([("modules", (Json.ofTexts manifest.modules).tree),
        ("dependencies", (Json.ofTexts manifest.dependencies).tree),
        ("digest", (Json.array (manifest.digest.map fun byte => .ofNat byte.toNat)).tree)],
        manifest.extra.map fun member => (member.1, member.2.tree)) := by
    simp only [List.cons_append, List.nil_append, Json.memberTrees, Tree.partition?, parted]
    rfl
  -- Every part is read as what it was written from, and the further members are in order already.
  have extras := mapM_json? sound.settled
  unfold ownKeys at known
  rw [json, Json.tree, ofTree?, known]
  simp only [Option.bind_eq_bind, Option.bind_some] at extras ⊢
  rw [extras]
  cases again : Json.rereadMembers? manifest.extra with
  | none => rfl
  | some extra =>
    simp [Dictionary.value?, List.lookup, strings?_ofTexts, bytes?_digest, Tree.fieldOr,
      Json.sortMembers_of_sorted (sound.sorted.reread again)]

theorem ofText_text (sound : manifest.Sound) : ofText manifest.text = manifest.reread := by
  rw [ofText, text, Json.ofText?_prettyText]
  simp only [Option.bind_eq_bind, Option.bind_some, if_pos (depth_json sound), ofTree?_json sound]
  rfl

theorem reread_of_exact (sound : manifest.Sound) (same : Json.exactMembers manifest.extra = true) :
    manifest.reread = .ok manifest := by
  have kept := Json.rereadMembers?_of_exact (fun member inside => (sound.settled member inside).reread?_of_exact) same
  rw [reread, kept]
  rfl

theorem Sound.of_extra_eq {other : Manifest} (sound : manifest.Sound) (same : other.extra = manifest.extra) :
    other.Sound := by
  obtain ⟨sorted, foreign, settled, shallow⟩ := sound
  rw [← same] at sorted foreign settled shallow
  exact ⟨sorted, foreign, settled, shallow⟩

end Manifest

/-- Editing a package succeeds exactly if its targets can be found and edited and its dependencies are addresses. The
text that comes of it is read as the edited package, doubles among the further members as what their texts stand for. -/
theorem editPackage_iff (text : String) (config : Config) (name? : Option String) (out : String) :
    editPackage text config name? = .ok out ↔ ∃ manifest targets edited, Manifest.ofText text = .ok manifest ∧
      manifest.Plan config name? targets ∧ manifest.EditedInto config targets edited ∧ out = edited.text ∧
      Manifest.ofText out = edited.reread ∧
      (Json.exactMembers manifest.extra = true → Manifest.ofText out = .ok edited) := by
  rw [editPackage_eq_ok]
  constructor
  · rintro ⟨manifest, targets, edited, read, plan, into, rfl⟩
    have sound := (Manifest.sound_of_ofText read).of_extra_eq into.extra
    have again := Manifest.ofText_text sound
    refine ⟨manifest, targets, edited, read, plan, into, rfl, again, fun same => ?_⟩
    rw [again, Manifest.reread_of_exact sound (into.extra ▸ same)]
  · rintro ⟨manifest, targets, edited, read, plan, into, written, _⟩
    exact ⟨manifest, targets, edited, read, plan, into, written⟩

def numberedText : String := "\x7b\"modules\":[\"oRzrCwYAAAACAQACBwICAAABYQA=\"],\"n\":12e23\x7d"

def renumberedText : String :=
  "\x7b\n  \"modules\": [\n    \"oRzrCwYAAAACAQACBwICAAABYQA=\"\n  ],\n  \"dependencies\": [],\n  \"digest\": [],\n  " ++
    "\"n\": 1.1999999999999999e+24\n\x7d"

/-- The double next to the literal is written as the shortest decimal that rounds to it, and that is read as the double
on the other side of the literal. -/
theorem editPackage_drifts : editPackage numberedText ⟨none, [], [], [], []⟩ none = .ok renumberedText ∧
    ∃ before after, Manifest.ofText numberedText = .ok before ∧ Manifest.ofText renumberedText = .ok after ∧
      after.extra ≠ before.extra := by
  have done : editPackage numberedText ⟨none, [], [], [], []⟩ none = .ok renumberedText := by decide +kernel
  have further : (Manifest.ofText numberedText).toOption.map (fun manifest => (Json.object manifest.extra).compactText) =
      some "\x7b\"n\":1.1999999999999999e+24\x7d" := by decide +kernel
  have further' : (Manifest.ofText renumberedText).toOption.map
      (fun manifest => (Json.object manifest.extra).compactText) = some "\x7b\"n\":1.2e+24\x7d" := by decide +kernel
  obtain ⟨before, read, shown⟩ := Steps.exists_of_map_toOption further
  obtain ⟨after, read', shown'⟩ := Steps.exists_of_map_toOption further'
  refine ⟨done, before, after, read, read', fun same => ?_⟩
  rw [same, shown] at shown'
  exact absurd shown' (by decide +kernel)

end MoveBytecode
