import WikiMarkup.Json.Exchange
import WikiMarkup.Proofs.Json.Reading

/-!
# The exchange as JSON obeys the laws

Reading counts down the levels of nesting while it goes into a value, and writing knows of no
levels. What holds the two together is the depth of a value: levels beyond it make no difference
(`ParseTree.ofJson?_eq_of_depth_le`), and with fewer levels no written tree is read
(`ParseTree.ofJson?_toJson_eq_none`).

**Key results.** `ParseTree.textLaws_json` and `ParseTree.treeLaws_json`: what an `Exchange` of
parse trees has to obey is obeyed by `ParseTree.json`.
-/

namespace WikiMarkup

/-! ### Fields -/

namespace Json

variable {names : List String} {value item : Json} {fields : List (Option Json)}

/-- What is found in a list by a search that may fail is found for one of its elements. -/
theorem exists_of_mem_mapM {α β : Type} {find : α → Option β} {entries : List α} {found : List β}
    (h : entries.mapM find = some found) {result : β} (hResult : result ∈ found) :
    ∃ entry ∈ entries, find entry = some result := by
  induction entries generalizing found with
  | nil =>
    cases h
    cases hResult
  | cons entry entries ih =>
    simp only [List.mapM_cons, Option.bind_eq_bind, Option.bind_eq_some_iff, Option.pure_def,
      Option.some_inj] at h
    obtain ⟨first, hFirst, more, hMore, rfl⟩ := h
    rcases List.mem_cons.mp hResult with rfl | hResult
    · exact ⟨entry, List.mem_cons_self, hFirst⟩
    · obtain ⟨other, hOther, hFind⟩ := ih hMore hResult
      exact ⟨other, List.mem_cons_of_mem _ hOther, hFind⟩

/-- To read all entries of a list depends on how each of them is read. -/
theorem mapM_congr {α β : Type} {read other : α → Option β} {entries : List α}
    (h : ∀ entry ∈ entries, read entry = other entry) : entries.mapM read = entries.mapM other := by
  induction entries with
  | nil => rfl
  | cons entry entries ih =>
    obtain ⟨hEntry, hEntries⟩ := List.forall_mem_cons.mp h
    rw [List.mapM_cons, List.mapM_cons, hEntry, ih hEntries]

theorem mem_of_member? {members : List (String × Json)} {name : String}
    (h : member? members name = some (some value)) : (name, value) ∈ members := by
  rw [member?] at h
  split at h
  next => cases h
  next found hFound =>
    cases h
    have hMem : (_, value) ∈ members.filter (·.1 == name) := hFound ▸ List.mem_singleton_self _
    obtain ⟨hMem, hName⟩ := List.mem_filter.mp hMem
    rwa [← beq_iff_eq.mp hName]
  next => cases h

/-- A field stands inside its record. -/
theorem depth_lt_of_mem_fields? (h : value.fields? names = some fields)
    (hItem : some item ∈ fields) : item.depth < value.depth := by
  cases value with
  | array items =>
    rw [fields?] at h
    split at h
    next =>
      cases h
      have hMem : item ∈ items := by simpa using hItem
      rw [depth]
      exact Nat.lt_succ_of_le (depthItems_le_iff.mp (Nat.le_refl _) item hMem)
    next => cases h
  | object members =>
    simp only [fields?, Option.bind_eq_bind, Option.bind_eq_some_iff] at h
    obtain ⟨named, hNamed, hFields⟩ := h
    obtain ⟨name, -, hMember⟩ := exists_of_mem_mapM hFields hItem
    obtain ⟨⟨found, _⟩, hMem, hFound⟩ := exists_of_mem_mapM hNamed (mem_of_member? hMember)
    obtain ⟨_, -, hSame⟩ := Option.map_eq_some_iff.mp hFound
    cases hSame
    rw [depth]
    exact Nat.lt_succ_of_le (depthMembers_le_iff.mp (Nat.le_refl _) _ hMem)
  | _ => cases h

/-- Only arrays and objects have fields. -/
theorem depth_pos_of_fields? (h : value.fields? names = some fields) : 0 < value.depth := by
  cases value with
  | array => exact Nat.succ_pos _
  | object => exact Nat.succ_pos _
  | _ => cases h

theorem asByte?_ofNat (byte : UInt8) : (ofNat byte.toNat).asByte? = some byte := by
  have hDigits : decimal? (Nat.toDigits 10 byte.toNat) = some byte.toNat := by
    have hAll : ∀ c ∈ Nat.toDigits 10 byte.toNat, c.isDigit := fun _ =>
      Nat.isDigit_of_mem_toDigits (by decide) (by decide)
    rw [decimal?, if_pos (by simpa using hAll)]
    exact congrArg some (Nat.ofDigitChars_toDigits (by decide) (by decide))
  have hSmall : byte.toNat < 256 := byte.toNat_lt
  simp [ofNat, asByte?, hDigits, hSmall]

/-- What may be null is read back if its values are. -/
theorem asNullable?_ofNullable {α : Type} {read : Json → Option α} {write : α → Json}
    (hRead : ∀ value, read (write value) = some value) (hNull : ∀ value, write value ≠ .null)
    (value : Option α) : asNullable? read (ofNullable write value) = some value := by
  cases value with
  | none => rfl
  | some value =>
    rw [ofNullable, asNullable?.eq_2 _ _ (hNull value), hRead]
    rfl

end Json

/-- To read a field depends on how its value is read. -/
theorem Json.field?_congr {α : Type} {read other : Json → Option α} (absent : α)
    {field : Option Json} (h : ∀ value, field = some value → read value = other value) :
    field? read absent field = field? other absent field := by
  cases field with
  | none => rfl
  | some value => exact h value rfl

/-! ### Records -/

namespace ParseTree

variable (kind : Kind) (caption : String) (items : List Json) (headingLevel : Option UInt8)
  (inlineHint : Option Bool)

/-- The children of a node stand inside two levels, that of the record and that of their array. -/
theorem depth_record :
    (record kind caption items headingLevel inlineHint).depth = Json.depthItems items + 2 := by
  have hLevel : (Json.ofNullable (fun level : UInt8 => Json.ofNat level.toNat)
      headingLevel).depth = 0 := by
    cases headingLevel <;> rfl
  have hHint : (Json.ofNullable Json.bool inlineHint).depth = 0 := by
    cases inlineHint <;> rfl
  simp [record, Json.depth, Json.depthMembers, Json.depthMember, Json.ofText, hLevel, hHint]

/-- A record is plain if the values of the children are. -/
theorem plain_record (hItems : ∀ item ∈ items, item.Plain) :
    (record kind caption items headingLevel inlineHint).Plain := by
  have hLevel : (Json.ofNullable (fun level : UInt8 => Json.ofNat level.toNat)
      headingLevel).Plain := by
    cases headingLevel with
    | none => exact .null
    | some level => exact .ofNat (Nat.lt_trans level.toNat_lt (by decide))
  have hHint : (Json.ofNullable Json.bool inlineHint).Plain := by
    cases inlineHint with
    | none => exact .null
    | some hint => exact .bool hint
  refine .object (by simp) ?_
  simp only [List.forall_mem_cons, List.not_mem_nil, false_imp_iff, implies_true, and_true]
  exact ⟨.ofText _, .ofText _, .array hItems, hLevel, hHint⟩

end ParseTree

/-- What an encoder of trees gives is plain. -/
theorem Exchange.TreeLaws.plain_encode {format : Exchange ParseTree} (laws : format.TreeLaws)
    (tree : ParseTree) : (format.encode tree).Plain := by
  cases tree with
  | node kind caption children headingLevel inlineHint =>
    rw [laws.encode_node]
    refine ParseTree.plain_record _ _ _ _ _ fun item hItem => ?_
    obtain ⟨child, hChild, rfl⟩ := List.mem_map.mp hItem
    exact laws.plain_encode child

/-! ### Levels -/

/-- Levels beyond the depth of a kind make no difference. -/
theorem Kind.ofJson?_eq_of_depth_le {few many : Nat} {value : Json} (hFew : value.depth ≤ few)
    (hMany : value.depth ≤ many) : Kind.ofJson? few value = Kind.ofJson? many value := by
  have hPos : ∀ {members levels}, (Json.object members).depth ≤ levels → levels ≠ 0 := by
    intro members levels h
    rw [Json.depth] at h
    omega
  unfold Kind.ofJson?
  split
  next => rfl
  next => rw [if_neg (hPos hFew), if_neg (hPos hMany)]
  next => rfl

namespace ParseTree

/-- What is no record is no parse tree, within however many levels. -/
theorem ofJson?_eq_none {value : Json} (hFields : value.fields? fieldNames = none) (levels : Nat) :
    ofJson? levels value = none := by
  cases levels with
  | zero => rfl
  | succ levels => rw [ofJson?, hFields]

/-- **Levels beyond the depth of a parse tree make no difference.** -/
theorem ofJson?_eq_of_depth_le {few many : Nat} {value : Json} (hFew : value.depth ≤ few)
    (hMany : value.depth ≤ many) : ofJson? few value = ofJson? many value := by
  induction few using Nat.strongRecOn generalizing many value with
  | _ few ih =>
  cases hFields : value.fields? fieldNames with
  | none => rw [ofJson?_eq_none hFields, ofJson?_eq_none hFields]
  | some fields =>
    have hPos := Json.depth_pos_of_fields? hFields
    obtain ⟨few, rfl⟩ := Nat.exists_eq_add_of_lt (Nat.lt_of_lt_of_le hPos hFew)
    obtain ⟨many, rfl⟩ := Nat.exists_eq_add_of_lt (Nat.lt_of_lt_of_le hPos hMany)
    rw [Nat.zero_add] at hFew hMany ih ⊢
    rw [Nat.zero_add]
    have hInside : ∀ item, some item ∈ fields → item.depth ≤ few ∧ item.depth ≤ many := by
      intro item hItem
      have hDepth := Json.depth_lt_of_mem_fields? hFields hItem
      omega
    rw [ofJson?, ofJson?, hFields]
    split
    next kind caption children headingLevel inlineHint hFields =>
      cases hFields
      have hKind : Json.field? (Kind.ofJson? few) default kind =
          Json.field? (Kind.ofJson? many) default kind :=
        Json.field?_congr default fun value hValue =>
          have hDepth := hInside value (by simp [hValue])
          Kind.ofJson?_eq_of_depth_le hDepth.1 hDepth.2
      rw [hKind]
      refine bind_congr fun kind => bind_congr fun caption => congrArg (· >>= _) ?_
      refine Json.field?_congr [] fun value hValue => ?_
      obtain ⟨hFew, hMany⟩ := hInside value (by simp [hValue])
      cases value with
      | array items =>
        -- the array takes up a level, and its items are read within the others
        rw [Json.depth] at hFew hMany
        obtain ⟨few, rfl⟩ := Nat.exists_eq_succ_of_ne_zero (Nat.ne_zero_of_lt hFew)
        obtain ⟨many, rfl⟩ := Nat.exists_eq_succ_of_ne_zero (Nat.ne_zero_of_lt hMany)
        exact Json.mapM_congr fun item hItem => ih few (by omega)
          (Json.depthItems_le_iff.mp (Nat.le_of_succ_le_succ hFew) item hItem)
          (Json.depthItems_le_iff.mp (Nat.le_of_succ_le_succ hMany) item hItem)
      | _ => cases few <;> cases many <;> rfl
    next => rfl

/-! ### Written trees -/

variable (kind : Kind) (caption : String) (items : List Json) (headingLevel : Option UInt8)
  (inlineHint : Option Bool)

/-- All fields of a record are present. -/
theorem fields?_record :
    (record kind caption items headingLevel inlineHint).fields? fieldNames =
      some [some (.ofText kind.name), some (.ofText caption), some (.array items),
        some (.ofNullable (fun level => .ofNat level.toNat) headingLevel),
        some (.ofNullable .bool inlineHint)] := by
  simp [record, Json.fields?, fieldNames, Json.member?]

/-- A record takes up two levels, and its children have to be read within the others. -/
theorem ofJson?_record (levels : Nat) :
    ofJson? (levels + 2) (record kind caption items headingLevel inlineHint) =
      (items.mapM (ofJson? levels)).map (node kind caption · headingLevel inlineHint) := by
  have hKind : Kind.ofJson? (levels + 1) (.text (some kind.name)) = some kind :=
    Kind.ofName?_name kind
  have hLevel := Json.asNullable?_ofNullable Json.asByte?_ofNat
    (fun _ h => by cases h) headingLevel
  have hRead : ∀ hint, (Json.bool hint).asBool? = some hint := fun _ => rfl
  have hHint := Json.asNullable?_ofNullable hRead (fun _ h => by cases h) inlineHint
  rw [ofJson?, fields?_record, Option.map_eq_bind]
  simp only [Json.field?, hKind, hLevel, hHint, Json.asText?, Json.ofText, Json.asArray?,
    Option.bind_eq_bind, Option.bind_some]
  rfl

/-- There is no reading a record within one level. -/
theorem ofJson?_record_eq_none {levels : Nat} (hLevels : levels < 2) :
    ofJson? levels (record kind caption items headingLevel inlineHint) = none := by
  match levels, hLevels with
  | 0, _ => rfl
  | 1, _ =>
    rw [ofJson?, fields?_record]
    simp [Json.field?]

theorem toJsonAll_eq_map (trees : List ParseTree) : toJsonAll trees = trees.map toJson := by
  induction trees with
  | nil => rfl
  | cons tree trees ih => rw [toJsonAll, ih, List.map_cons]

mutual

/-- With fewer levels than it takes up no written tree is read. -/
theorem ofJson?_toJson_eq_none {levels : Nat} : ∀ tree : ParseTree, levels < tree.toJson.depth →
    ofJson? levels tree.toJson = none
  | .node kind caption children headingLevel inlineHint, hLevels => by
    rw [toJson, depth_record] at hLevels
    rw [toJson]
    match levels with
    | 0 => exact ofJson?_record_eq_none _ _ _ _ _ (by decide)
    | 1 => exact ofJson?_record_eq_none _ _ _ _ _ (by decide)
    | levels + 2 =>
      have hChildren := mapM_ofJson?_toJsonAll_eq_none children (Nat.lt_of_add_lt_add_right hLevels)
      rw [ofJson?_record, hChildren]
      rfl

theorem mapM_ofJson?_toJsonAll_eq_none {levels : Nat} : ∀ trees : List ParseTree,
    levels < Json.depthItems (toJsonAll trees) → (toJsonAll trees).mapM (ofJson? levels) = none
  | [], hLevels => by cases hLevels
  | tree :: trees, hLevels => by
    rw [toJsonAll, Json.depthItems] at hLevels
    have hSome : levels < tree.toJson.depth ∨ levels < Json.depthItems (toJsonAll trees) := by omega
    rw [toJsonAll, List.mapM_cons]
    rcases hSome with hTree | hTrees
    · rw [ofJson?_toJson_eq_none tree hTree]
      rfl
    · rw [mapM_ofJson?_toJsonAll_eq_none trees hTrees]
      cases ofJson? levels tree.toJson <;> rfl

end

/-! ### Laws -/

/-- **Records of parse trees obey the laws.** -/
theorem treeLaws_json : json.TreeLaws where
  encode_node kind caption children headingLevel inlineHint :=
    congrArg (record kind caption · headingLevel inlineHint) (toJsonAll_eq_map children)
  decode?_record kind caption items headingLevel inlineHint := by
    have hItems : items.mapM (ofJson? (Json.depthItems items)) = items.mapM json.decode? :=
      Json.mapM_congr fun item hItem =>
        ofJson?_eq_of_depth_le (Json.depthItems_le_iff.mp (Nat.le_refl _) item hItem)
          (Nat.le_refl _)
    rw [← hItems, ← ofJson?_record, ← depth_record]
    rfl

/-- A plain value is read within all the levels that there are. -/
theorem read?_write_json {value : Json} (plain : value.Plain) :
    json.read? (json.write value) = ofJson? maxDepth value := by
  have hParse : Json.parse? (json.write value) = some value := plain.parse?_render
  have hRead : json.read? = parse? := rfl
  rw [hRead, parse?, hParse]
  rfl

/-- **Texts of parse trees obey the laws.** -/
theorem textLaws_json : json.TextLaws where
  limit_eq := rfl
  read?_write value plain hDepth := by
    rw [read?_write_json plain]
    exact ofJson?_eq_of_depth_le hDepth (Nat.le_refl _)
  read?_write_eq_none tree hDepth := by
    rw [read?_write_json (treeLaws_json.plain_encode tree)]
    exact ofJson?_toJson_eq_none tree hDepth

end ParseTree

end WikiMarkup
