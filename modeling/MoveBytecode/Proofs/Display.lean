import MoveBytecode.Proofs.Payload
import MoveBytecode.Proofs.Text

/-! A value of a type is read back from its readable text, at the top and inside a list, and what a text is read as has
the type it was read for, so its payload is read back too. -/

set_option autoImplicit false

namespace MoveBytecode

open Text

namespace Hex

theorem isPlain_of_mem_encode {bytes : Bytes} {c : Char} (member : c ∈ encode bytes) : isPlain c = true := by
  have each : ∀ m : Fin 16, (Nat.digitChar m).isAlphanum = true := by decide
  obtain ⟨byte, _, digit⟩ := List.mem_flatMap.mp member
  have small := byte.toNat_lt
  have high := each ⟨byte.toNat / 16, by omega⟩
  have low := each ⟨byte.toNat % 16, by omega⟩
  simp only [digits, List.mem_cons, List.not_mem_nil, or_false] at digit
  rcases digit with rfl | rfl
  · exact isPlain_of_isAlphanum high
  · exact isPlain_of_isAlphanum low

theorem isPlain_of_mem_literal {bytes : Bytes} {c : Char} (member : c ∈ '0' :: 'x' :: encode bytes) :
    isPlain c = true := by
  simp only [List.mem_cons] at member
  rcases member with rfl | rfl | member
  · decide
  · decide
  · exact isPlain_of_mem_encode member

end Hex

@[simp] theorem Address.ofHex?_display (address : Address) : ofHex? address.display = some address := by
  change (Hex.decode? (Hex.encode address.bytes)).bind ofBytes? = some address
  rw [Hex.decode?_encode, Option.bind_some, ofBytes?, dif_pos address.length_eq]

namespace Value

theorem renderAll_eq_map (element : Ty) (items : List Value) :
    renderAll element items = items.map (render true element) := by
  induction items with
  | nil => rfl
  | cons first rest ih => rw [renderAll, ih, List.map_cons]

theorem render_vector (nested : Bool) (element : Ty) (items : List Value) :
    render nested (.vector element) (.vector items) =
      if element = .uint .w8 then renderBytes nested (byteElements items)
      else '[' :: List.intercalate [',', ' '] (items.map (render true element)) ++ [']'] := by
  rw [render, renderAll_eq_map]

theorem ofBytes_byteElements {items : List Value} (typed : ∀ item ∈ items, HasType (.uint .w8) item) :
    ofBytes (byteElements items) = .vector items := by
  induction items with
  | nil => rfl
  | cons first rest ih =>
    obtain ⟨head, tail⟩ := List.forall_mem_cons.mp typed
    cases first with
    | uint width number =>
      obtain ⟨rfl, small⟩ := head
      have same : (UInt8.ofNat number).toNat = number := by
        rw [UInt8.toNat_ofNat']
        exact Nat.mod_eq_of_lt small
      have more := Value.vector.inj (ih tail)
      change Value.vector (.uint .w8 (UInt8.ofNat number).toNat :: _) = _
      rw [same]
      exact congrArg (fun others => Value.vector (.uint .w8 number :: others)) more
    | bool _ | address _ | vector _ => cases head

theorem hasType_ofBytes (bytes : Bytes) : HasType Ty.bytes (ofBytes bytes) := by
  intro item member
  obtain ⟨byte, _, rfl⟩ := List.mem_map.mp member
  exact ⟨rfl, byte.toNat_lt⟩

def IsLiteral (text : List Char) : Prop :=
  ∃ digits, text = '0' :: 'x' :: digits ∧ digits.length % 2 = 0 ∧ ∀ c ∈ digits, Hex.IsDigit c

section
variable {nested : Bool} {text : List Char} {bytes : Bytes}

theorem isHexLiteral_iff : isHexLiteral text = true ↔ IsLiteral text := by
  constructor
  · intro shown
    unfold isHexLiteral at shown
    split at shown
    · simp only [Bool.and_eq_true, decide_eq_true_eq, List.all_eq_true, Hex.isDigit_iff] at shown
      exact ⟨_, rfl, shown⟩
    · cases shown
  · intro literal
    obtain ⟨digits, rfl, even, all⟩ := literal
    simp only [isHexLiteral, Bool.and_eq_true, decide_eq_true_eq, List.all_eq_true, Hex.isDigit_iff]
    exact ⟨even, all⟩

theorem parseBytes_of_spells {digits : List Char} (spells : Hex.Spells digits bytes) :
    parseBytes nested ('0' :: 'x' :: digits) = .ok bytes := by
  have literal : IsLiteral ('0' :: 'x' :: digits) := ⟨digits, rfl, Hex.exists_spells.mp ⟨bytes, spells⟩⟩
  have read : Hex.decode? (('0' :: 'x' :: digits).drop 2) = some bytes := Hex.decode?_eq_some.mpr spells
  rw [parseBytes, if_pos (isHexLiteral_iff.mpr literal), read]

theorem parseBytes_of_not_isLiteral (plain : ¬IsLiteral text) : parseBytes nested text =
    if nested && text.any [',', '[', ']'].contains then .error .nestedBytes
    else .ok (Bytes.ofText (String.ofList text)) := by
  rw [parseBytes, if_neg (mt isHexLiteral_iff.mp plain)]

/-- What passes for a literal can be read as one. -/
theorem parseBytes_ne_badHex : parseBytes nested text ≠ .error .badHex := by
  by_cases literal : IsLiteral text
  · obtain ⟨digits, rfl, even⟩ := literal
    obtain ⟨bytes, spells⟩ := Hex.exists_spells.mpr even
    rw [parseBytes_of_spells spells]
    exact nofun
  · rw [parseBytes_of_not_isLiteral literal]
    split <;> simp

theorem reason_ne_badHex {ty : Ty} {error : ParseError} (failed : parseAt nested ty text = .error error) :
    error.reason ≠ .badHex := by
  induction ty generalizing nested text error with
  | bool =>
    rw [parseAt] at failed
    split at failed
    · cases failed
    · split at failed <;> cases failed
      exact nofun
  | uint _ | address =>
    rw [parseAt] at failed
    split at failed <;> cases failed
    exact nofun
  -- A list fails for its shape, for a byte string or for one of its items.
  | vector element ih =>
    rw [parseAt] at failed
    split at failed
    · cases read : parseBytes nested text with
      | ok bytes => simp [read] at failed
      | error reason =>
        simp only [read, Except.error.injEq] at failed
        subst failed
        rintro rfl
        exact parseBytes_ne_badHex read
    · split at failed
      · cases failed
        exact nofun
      · split at failed
        · cases failed
          exact nofun
        · rename_i items _
          obtain ⟨item, _, failed⟩ := Steps.exists_of_mapM_eq_error (Steps.map_eq_error.mp failed)
          exact ih failed

end

/-- Text is shown only where it cannot be taken for a literal, so both ways of showing bytes are told apart. -/
theorem parseBytes_renderBytes (nested : Bool) (bytes : Bytes) :
    parseBytes nested (renderBytes nested bytes) = .ok bytes := by
  have literal : parseBytes nested ('0' :: 'x' :: Hex.encode bytes) = .ok bytes :=
    parseBytes_of_spells (Hex.spells_encode bytes)
  cases nested with
  | true => exact literal
  | false =>
    rw [renderBytes, if_neg Bool.false_ne_true]
    cases shown : bytes.toText? with
    | none => exact literal
    | some text =>
      -- Text that could be taken for a literal is shown as the literal of its own bytes.
      by_cases ambiguous : IsLiteral text.toList
      · simpa [isHexLiteral_iff.mpr ambiguous] using literal
      · simp only [mt isHexLiteral_iff.mp ambiguous]
        change parseBytes false text.toList = _
        rw [parseBytes_of_not_isLiteral ambiguous]
        simp [Bytes.toText?_eq_some.mp shown]

theorem render_balanced_tight {ty : Ty} {value : Value} (typed : HasType ty value) :
    Balanced (render true ty value) ∧ Tight (render true ty value) := by
  have plain : ∀ {text : List Char}, text ≠ [] → (∀ c ∈ text, isPlain c = true) → Balanced text ∧ Tight text :=
    fun nonempty all => ⟨balanced_of_plain all, tight_of_plain nonempty all⟩
  induction ty generalizing value with
  | bool =>
    cases value with
    | bool truth =>
      have nonempty : render true .bool (.bool truth) ≠ [] := by cases truth <;> exact List.cons_ne_nil _ _
      have all : (render true .bool (.bool truth)).all isPlain = true := by cases truth <;> rfl
      exact plain nonempty (List.all_eq_true.mp all)
    | uint _ _ | address _ | vector _ => cases typed
  | uint width =>
    cases value with
    | uint width' number =>
      exact plain Nat.toDigits_ne_nil fun c member => isPlain_of_isAlphanum (isAlphanum_of_mem_decimal member)
    | bool _ | address _ | vector _ => cases typed
  | address =>
    cases value with
    | address address => exact plain (List.cons_ne_nil _ _) fun c member => Hex.isPlain_of_mem_literal member
    | bool _ | uint _ _ | vector _ => cases typed
  | vector element ih =>
    cases value with
    | vector items =>
      rw [render_vector]
      by_cases isByte : element = .uint .w8
      · rw [if_pos isByte]
        exact plain (List.cons_ne_nil _ _) fun c member => Hex.isPlain_of_mem_literal member
      · rw [if_neg isByte]
        refine ⟨balanced_list ?_, ⟨'[', _, rfl, by decide⟩, _, ']', rfl, by decide⟩
        intro part member
        obtain ⟨item, inside, rfl⟩ := List.mem_map.mp member
        exact (ih (typed item inside)).1
    | bool _ | uint _ _ | address _ => cases typed

theorem intercalate_cons (separator first : List Char) (rest : List (List Char)) :
    List.intercalate separator (first :: rest) = first ++ rest.flatMap (separator ++ ·) := by
  induction rest generalizing first with
  | nil => simp
  | cons second rest ih =>
    rw [List.intercalate_cons_cons, ih]
    simp

/-- The items of a shown list come back behind the blanks that were set before all but the first. -/
theorem splitItems_intercalate {parts : List (List Char)} (shown : ∀ part ∈ parts, Balanced part ∧ Tight part) :
    ∃ pieces, splitItems (List.intercalate [',', ' '] parts) = some pieces ∧ pieces.map trim = parts := by
  cases parts with
  | nil => exact ⟨[], rfl, rfl⟩
  | cons first rest =>
    obtain ⟨⟨balanced, tight⟩, others⟩ := List.forall_mem_cons.mp shown
    refine ⟨first :: rest.map (' ' :: ·), ?_, ?_⟩
    · rw [intercalate_cons, splitItems, if_neg (by simp [tight.any_not_blank]), splitAtDepth_eq_some]
      refine ⟨by rw [List.flatMap_map]; rfl, balanced 0, fun part member => ?_⟩
      obtain ⟨text, inside, rfl⟩ := List.mem_map.mp member
      exact (others text inside).1 0
    · rw [List.map_cons, List.map_map, tight.trim_eq]
      refine congrArg (List.cons first) ((List.map_congr_left fun part member => ?_).trans (List.map_id rest))
      exact (others part member).2.trim_behind_blank

theorem bracketed?_list (body : List Char) : bracketed? ('[' :: body ++ [']']) = some body := by
  simp [bracketed?]

theorem parseAt_render {ty : Ty} {value : Value} (typed : HasType ty value) (nested : Bool) :
    parseAt nested ty (render nested ty value) = .ok value := by
  induction ty generalizing value nested with
  | bool =>
    cases value with
    | bool truth => cases truth <;> rfl
    | uint _ _ | address _ | vector _ => cases typed
  | uint width =>
    cases value with
    | uint width' number =>
      obtain ⟨rfl, small⟩ := typed
      have kept : (some number).filter (fun n => decide (n < Nat.pow 2 width'.bits)) = some number :=
        Option.filter_eq_some_iff.mpr ⟨rfl, decide_eq_true small⟩
      rw [render, parseAt, readDecimal?_decimal, kept]
    | bool _ | address _ | vector _ => cases typed
  | address =>
    cases value with
    | address address => rw [render, parseAt, Address.ofHex?_display]
    | bool _ | uint _ _ | vector _ => cases typed
  | vector element ih =>
    cases value with
    | vector items =>
      by_cases isByte : element = .uint .w8
      · subst isByte
        rw [render_vector, if_pos rfl, parseAt, if_pos rfl, parseBytes_renderBytes]
        exact congrArg Except.ok (ofBytes_byteElements typed)
      · have whole : HasType (.vector element) (.vector items) := typed
        have tight := (render_balanced_tight whole).2
        rw [render_vector, if_neg isByte] at tight
        have shown : ∀ part ∈ items.map (render true element), Balanced part ∧ Tight part := by
          intro part member
          obtain ⟨item, inside, rfl⟩ := List.mem_map.mp member
          exact render_balanced_tight (typed item inside)
        obtain ⟨pieces, split, trimmed⟩ := splitItems_intercalate shown
        -- A piece is read once it is trimmed, which leaves the text of its item.
        have back : pieces.mapM (fun piece => parseAt true element (trim piece)) = .ok items := by
          have whole := Steps.mapM_map_eq_ok fun item inside => ih (typed item inside) true
          rwa [← trimmed, List.mapM_map] at whole
        rw [render_vector, if_neg isByte, parseAt, if_neg isByte, tight.trim_eq, bracketed?_list]
        simp only [split, back]
        rfl
    | bool _ | uint _ _ | address _ => cases typed

theorem hasType_of_parseAt {nested : Bool} {ty : Ty} {text : List Char} {value : Value}
    (parsed : parseAt nested ty text = .ok value) : HasType ty value := by
  induction ty generalizing nested text value with
  | bool =>
    rw [parseAt] at parsed
    split_ifs at parsed <;> cases parsed <;> trivial
  | uint width =>
    rw [parseAt] at parsed
    split at parsed
    · rename_i number found
      cases parsed
      obtain ⟨_, small⟩ := Option.filter_eq_some_iff.mp found
      exact ⟨rfl, of_decide_eq_true small⟩
    · cases parsed
  | address =>
    rw [parseAt] at parsed
    split at parsed <;> cases parsed
    trivial
  | vector element ih =>
    rw [parseAt] at parsed
    split at parsed
    · rename_i isByte
      subst isByte
      split at parsed <;> cases parsed
      exact hasType_ofBytes _
    · split at parsed
      · cases parsed
      · split at parsed
        · cases parsed
        · obtain ⟨items, read, made⟩ := Steps.bind_eq_ok.mp parsed
          cases made
          intro item member
          obtain ⟨piece, _, found⟩ := Steps.exists_of_mem_mapM read member
          exact ih found

theorem hasType_of_parse {ty : Ty} {text : String} {value : Value} (parsed : parse ty text = .ok value) :
    HasType ty value := hasType_of_parseAt parsed

theorem parse_display {ty : Ty} {value : Value} (typed : HasType ty value) :
    parse ty (value.display ty) = .ok value := by
  rw [parse, display, String.toList_ofList]
  exact parseAt_render typed false

/-- A payload stands for one value of its type, and that value is written as nothing else. What a text is read as can be
written as a payload and read back. -/
theorem ofPayload_iff (ty : Ty) :
    (∀ (bytes : Bytes) (value : Value),
      ofPayload ty bytes = .ok value ↔ (HasType ty value ∧ CountsFit ty value) ∧ value.payload = bytes) ∧
    ∀ (text : String) (value : Value), parse ty text = .ok value →
      HasType ty value ∧ (CountsFit ty value → ofPayload ty value.payload = .ok value) := by
  refine ⟨fun bytes value => ?_, fun text value parsed => ?_⟩
  · rw [ofPayload_eq_ok, eq_comm (a := bytes)]
  · have typed := hasType_of_parse parsed
    exact ⟨typed, fun fits => ofPayload_eq_ok.mpr ⟨⟨typed, fits⟩, rfl⟩⟩

theorem ofPayload_greetings :
    parse (.vector .bytes) "[Hi, 0x]" = .ok (.vector [ofBytes [0x48, 0x69], ofBytes []]) ∧
    ofPayload (.vector .bytes) [2, 2, 0x48, 0x69, 0] = .ok (.vector [ofBytes [0x48, 0x69], ofBytes []]) := by
  have parsed : parse (.vector .bytes) "[Hi, 0x]" = .ok (.vector [ofBytes [0x48, 0x69], ofBytes []]) := by
    decide +kernel
  have fits : CountsFit (.vector .bytes) (.vector [ofBytes [0x48, 0x69], ofBytes []]) :=
    countsFit_of_length (by decide)
  exact ⟨parsed, ((ofPayload_iff (.vector .bytes)).2 _ _ parsed).2 fits⟩

end Value

end MoveBytecode
