import Glia.CodeDomain.ExternalInputs
import Mathlib.Data.Multiset.AddSub

/-! An entry the writer accepts, read back from the stored array. -/
namespace Glia.ExternalInputs

open Glia (Json Serde)

section Steps

theorem bind_ok {ε α β : Type} {x : Except ε α} {f : α → Except ε β} {b : β} :
    (x >>= f) = .ok b ↔ ∃ a, x = .ok a ∧ f a = .ok b := by
  cases x with
  | error e => simp [bind, Except.bind]
  | ok a => simp [bind, Except.bind]

@[simp] theorem refuseIf_ok {bad : Bool} {message : String} {u : Unit} :
    refuseIf bad message = .ok u ↔ bad = false := by
  cases bad <;> simp [refuseIf]

end Steps

section Accepted
variable (obj : Fields)

def textOf (key : String) : Option String := (obj.lookup key).bind Json.asStr

theorem textOf_of_stringField {key : String} {o : Option String}
    (h : stringField obj key = .ok o) : o = textOf obj key := by
  rw [stringField] at h
  split at h
  · cases h
    simp [textOf, *]
  · cases h
    simp [textOf, Json.asStr, *]
  · cases h
    simp [textOf, Json.asStr, *]
  · cases h

theorem field_of_stringField {key : String} {o : Option String}
    (h : stringField obj key = .ok o) : field obj key = some (textOf obj key) := by
  rw [field, h, ← textOf_of_stringField obj h]
  rfl

/-- The text of a field that must not be blank, as the check reads it. -/
def validText (key : String) : String := Text.trim ((textOf obj key).getD "")

def validList (key : String) : List String := (stringList obj key).getD []

theorem required_of_present {key : String} (h : present obj key = .ok true) :
    required obj key = some (validText obj key) := by
  obtain ⟨o, read, filled⟩ := bind_ok.mp h
  have text := textOf_of_stringField obj read
  rw [required, field_of_stringField obj read, validText, ← text]
  cases o with
  | none => cases filled
  | some s =>
    have notBlank : isBlank s = false := by simpa [pure, Except.pure] using filled
    have kept : (Text.trim s).toList ≠ [] := by simpa [isBlank] using notBlank
    simp [trimmed, kept]

theorem stringList_of_isSome {key : String} (h : (stringList obj key).isNone = false) :
    stringList obj key = some (validList obj key) := by
  cases found : stringList obj key with
  | none => simp [found] at h
  | some l => simp [validList, found]

def validFlag (key : String) : Bool := (flag (obj.lookup key)).getD false

/-- The entry's kind and that kind's fields, as the check reads them. -/
def validKind (kind : String) : ConstraintKind :=
  if kind = "forbid_edge" then
    .forbidEdge (validText obj "from") (validText obj "to") (validFlag obj "transitive")
      (validList obj "via")
  else if kind = "no_cycle" then .noCycle (textOf obj "scope")
  else if kind = "invariant" then .invariant (validText obj "text") (textOf obj "rule")
  else if kind = "allow" then .allow (validText obj "from") (validText obj "to")
  else if kind = "component" then .component (validText obj "name") (validList obj "paths")
  else
    .layer (validText obj "name") ((u32Of (obj.lookup "rank")).getD 0).toUInt32
      (validList obj "components") (validFlag obj "strict")

def validCategories : List String :=
  (((obj.lookup "categories").bind Json.asArray).getD []).filterMap Json.asStr

def asValidated : ConstraintRule where
  id := (textOf obj "id").getD ""
  kind := validKind obj ((textOf obj "kind").getD "")
  categories := validCategories obj
  source := (textOf obj "source").getD ""
  decl := textOf obj "decl"
  minTier := textOf obj "min_tier"

section Parts
variable (print : Printing)

theorem categoriesOf_of_check (h : categoriesCheck print obj = .ok ()) :
    categoriesOf obj = some (validCategories obj) := by
  rw [categoriesCheck] at h
  rw [categoriesOf, validCategories]
  split at h
  · simp [*]
  · simp [*, Json.asArray]
  · rename_i names found
    simp only [found, Option.bind_some, Json.asArray, Option.getD_some]
    split at h
    · cases h
    · rename_i known
      have strings : ∀ v ∈ names, ∃ s, v.asStr = some s := by
        intro v mem
        have named := List.find?_eq_none.mp known v mem
        cases text : v.asStr with
        | none => simp [isCategoryName, text] at named
        | some s => exact ⟨s, rfl⟩
      clear known found
      induction names with
      | nil => rfl
      | cons v names ih =>
        obtain ⟨s, text⟩ := strings v List.mem_cons_self
        have rest := ih fun w mem => strings w (List.mem_cons_of_mem v mem)
        simp [text, rest]
  · cases h

theorem tier_of_check {tier : String} (h : checkMinTier tier = .ok ()) : tier ∈ minTiers := by
  rw [checkMinTier] at h
  split at h
  · rename_i known
    cases parsed : parseTier tier with
    | none => simp [parsed] at known
    | some t =>
      have spelled : tierName t = tier ∧ t ≠ .heuristic := by simpa [parsed] using known
      rw [← spelled.1]
      cases t with
      | fact => decide
      | derived => decide
      | heuristic => exact absurd rfl spelled.2
  · cases h

theorem minTierOf_of_check {kind : String} {hasRule : Bool}
    (h : minTierCheck obj kind hasRule = .ok ()) : minTierOf obj = some (textOf obj "min_tier") := by
  rw [minTierCheck] at h
  rw [minTierOf, field, stringField, textOf]
  split at h
  · simp [*, Except.toOption]
  · simp [*, Except.toOption, Json.asStr]
  · rename_i tier found
    obtain ⟨_, spelled, _⟩ := bind_ok.mp h
    simp [found, Except.toOption, Json.asStr, tier_of_check spelled]
  · cases h

theorem notBlank_of_check {rule : String} (h : checkRuleText rule = .ok ()) :
    isBlank rule = false := by
  by_cases blank : isBlank rule = true
  · rw [checkRuleText, blank, Bool.true_or, if_pos rfl] at h
    cases h
  · simpa using blank

theorem ruleOf_of_check {kind : String} {allowRule hasRule : Bool}
    (h : ruleCheck print obj kind allowRule = .ok hasRule) :
    ruleOf obj = some (textOf obj "rule") := by
  rw [ruleCheck] at h
  rw [ruleOf, field, stringField, textOf]
  cases found : obj.lookup "rule" with
  | none => rfl
  | some v =>
    rw [found] at h
    cases allowRule with
    | false => cases h
    | true =>
      cases v with
      | str rule =>
        obtain ⟨_, _, h⟩ := bind_ok.mp h
        obtain ⟨_, shaped, _⟩ := bind_ok.mp h
        simp [Except.toOption, Json.asStr, notBlank_of_check shaped]
      | _ => cases h

theorem viaOf_of_check {transitive : Bool} (h : viaCheck obj transitive = .ok ()) :
    viaOf obj = some (validList obj "via") := by
  rw [viaCheck] at h
  rw [viaOf]
  split at h
  · rename_i absent
    rw [if_pos absent, validList, stringList]
    cases found : obj.lookup "via" with
    | none => rfl
    | some v =>
      cases v with
      | null => rfl
      | _ => simp [found, nullable] at absent
  · rename_i there
    obtain ⟨_, listed, _⟩ := bind_ok.mp h
    rw [if_neg there, stringList_of_isSome obj (by simpa using listed)]

theorem presentBoth_ok {key key' : String} (h : presentBoth obj key key' = .ok true) :
    present obj key = .ok true ∧ present obj key' = .ok true := by
  obtain ⟨b, read, rest⟩ := bind_ok.mp h
  cases b with
  | false => cases rest
  | true => exact ⟨read, rest⟩

theorem found_of_refuse {check : Except String Bool} {message : String}
    {rest : Unit → Except String Unit} {u : Unit}
    (h : (do let found ← check; let v ← refuseIf (!found) message; rest v) = .ok u) :
    check = .ok true ∧ rest () = .ok u := by
  obtain ⟨found, read, h⟩ := bind_ok.mp h
  obtain ⟨_, there, h⟩ := bind_ok.mp h
  rw [refuseIf_ok] at there
  have yes : found = true := by simpa using there
  exact ⟨yes ▸ read, h⟩

theorem found_of_last {check : Except String Bool} {message : String} {u : Unit}
    (h : (do let found ← check; refuseIf (!found) message) = .ok u) : check = .ok true := by
  obtain ⟨found, read, there⟩ := bind_ok.mp h
  rw [refuseIf_ok] at there
  have yes : found = true := by simpa using there
  exact yes ▸ read

theorem flag_of_isSome {key : String} (h : (flag (obj.lookup key)).isNone = false) :
    flag (obj.lookup key) = some (validFlag obj key) := by
  cases found : flag (obj.lookup key) with
  | none => simp [found] at h
  | some b => simp [validFlag, found]

theorem kindOf_of_check {kind : String} {transitive : Bool}
    (known : (constraintKinds ++ modelKinds).contains kind = true)
    (h : kindChecks obj kind = .ok ()) (scope : ∃ o, stringField obj "scope" = .ok o)
    (ruled : ruleOf obj = some (textOf obj "rule"))
    (flagged : flag (obj.lookup "transitive") = some transitive)
    (via : viaOf obj = some (validList obj "via")) :
    kindOf obj kind = some (validKind obj kind) := by
  have one_of : kind = "forbid_edge" ∨ kind = "no_cycle" ∨ kind = "invariant" ∨
      kind = "allow" ∨ kind = "component" ∨ kind = "layer" := by
    simpa [constraintKinds, modelKinds, or_assoc] using known
  obtain rfl | rfl | rfl | rfl | rfl | rfl := one_of <;> simp [kindChecks] at h
  · obtain ⟨source, target⟩ := presentBoth_ok obj (found_of_last h)
    simp [kindOf, validKind, required_of_present obj source, required_of_present obj target,
      validFlag, flagged, via]
  · obtain ⟨o, read⟩ := scope
    simp [kindOf, validKind, field_of_stringField obj read]
  · simp [kindOf, validKind, required_of_present obj (found_of_last h), ruled]
  · obtain ⟨source, target⟩ := presentBoth_ok obj (found_of_last h)
    simp [kindOf, validKind, required_of_present obj source, required_of_present obj target]
  · obtain ⟨name, paths⟩ := found_of_refuse h
    simp [kindOf, validKind, required_of_present obj name,
      stringList_of_isSome obj (refuseIf_ok.mp paths)]
  · obtain ⟨name, h⟩ := found_of_refuse h
    obtain ⟨_, ranked, h⟩ := bind_ok.mp h
    obtain ⟨_, listed, strict⟩ := bind_ok.mp h
    obtain ⟨rank, found⟩ : ∃ rank, u32Of (obj.lookup "rank") = some rank := by
      rw [← Option.isSome_iff_exists, ← Option.isNone_eq_false_iff]
      exact refuseIf_ok.mp ranked
    simp [kindOf, validKind, required_of_present obj name, found,
      stringList_of_isSome obj (refuseIf_ok.mp listed),
      flag_of_isSome obj (refuseIf_ok.mp strict)]

end Parts

/-- The entry's id has no blanks around it, and its `decl` is a string, `null` or absent. -/
def Legible : Prop :=
  Text.trim ((textOf obj "id").getD "") = (textOf obj "id").getD "" ∧
    (nullable (obj.lookup "decl") = true ∨ (textOf obj "decl").isSome = true)

theorem field_decl : field obj "decl" =
    if nullable (obj.lookup "decl") = true ∨ (textOf obj "decl").isSome = true then
      some (textOf obj "decl") else none := by
  rw [field, stringField, textOf]
  cases obj.lookup "decl" with
  | none => rfl
  | some v => cases v <;> rfl

theorem required_source {s : String} (read : stringField obj "source" = .ok (some s))
    (known : s ∈ entrySources) : required obj "source" = some s := by
  have kept : ∀ s ∈ entrySources, trimmed s = some s := by decide +kernel
  rw [required, field_of_stringField obj read, ← textOf_of_stringField obj read,
    Option.join_some, Option.bind_some, kept s known]

theorem trimmed_iff {id : String} (filled : id.length ≠ 0) :
    trimmed id = some id ↔ Text.trim id = id := by
  rw [trimmed]
  constructor
  · intro h
    split at h
    · cases h
    · exact Option.some.inj h
  · intro same
    have kept : id.toList ≠ [] := by
      intro e
      exact filled (by rw [← String.length_toList, e]; rfl)
    simp [same, kept]

structure Accepted where
  id : String
  source : String
  readId : stringField obj "id" = .ok (some id)
  filled : id.length ≠ 0
  source_read : required obj "source" = some source
  source_text : textOf obj "source" = some source
  kind : (field obj "kind").join.bind (kindOf obj) =
    some (validKind obj ((textOf obj "kind").getD ""))
  categories : categoriesOf obj = some (validCategories obj)
  minTier : minTierOf obj = some (textOf obj "min_tier")

theorem constraintChecks_ok (print : Printing) {allowRule : Bool}
    (h : constraintChecks print obj allowRule = .ok ()) :
    (field obj "kind").join.bind (kindOf obj) =
        some (validKind obj ((textOf obj "kind").getD "")) ∧
      categoriesOf obj = some (validCategories obj) ∧
      minTierOf obj = some (textOf obj "min_tier") := by
  rw [constraintChecks] at h
  obtain ⟨kind, readKind, h⟩ := bind_ok.mp h
  obtain ⟨_, known, h⟩ := bind_ok.mp h
  obtain ⟨_, kinded, h⟩ := bind_ok.mp h
  obtain ⟨scope, readScope, h⟩ := bind_ok.mp h
  obtain ⟨_, categories, h⟩ := bind_ok.mp h
  obtain ⟨hasRule, ruled, h⟩ := bind_ok.mp h
  cases flagged : flag (obj.lookup "transitive") with
  | none =>
    rw [flagged] at h
    cases h
  | some transitive =>
    rw [flagged] at h
    obtain ⟨_, placed, h⟩ := bind_ok.mp h
    obtain ⟨_, via, minTier⟩ := bind_ok.mp h
    rw [refuseIf_ok, Bool.not_eq_false'] at known
    have one : kindOf obj (kind.getD "") = some (validKind obj (kind.getD "")) :=
      kindOf_of_check obj known kinded ⟨scope, readScope⟩ (ruleOf_of_check obj print ruled)
        flagged (viaOf_of_check obj via)
    rw [field_of_stringField obj readKind, ← textOf_of_stringField obj readKind]
    refine ⟨?_, categoriesOf_of_check obj print categories, minTierOf_of_check obj minTier⟩
    cases kind with
    | none => exact absurd known (by decide)
    | some kind => exact one

theorem checkEntry_ok (print : Printing) {allowRule : Bool}
    (h : checkEntry print (.obj obj) allowRule = .ok ()) : Nonempty (Accepted obj) := by
  rw [checkEntry] at h
  simp only [Json.asObject] at h
  obtain ⟨source, readSource, h⟩ := bind_ok.mp h
  obtain ⟨_, sourced, h⟩ := bind_ok.mp h
  obtain ⟨id, readId, h⟩ := bind_ok.mp h
  cases id with
  | none => cases h
  | some id =>
    obtain ⟨_, shaped, h⟩ := bind_ok.mp h
    obtain ⟨kind, categories, minTier⟩ := constraintChecks_ok obj print h
    cases source with
    | none => cases sourced
    | some source =>
      rw [refuseIf_ok] at sourced shaped
      have known : source ∈ entrySources := by simpa using sourced
      have filled : id.length ≠ 0 := by
        simp only [Bool.or_eq_false_iff, decide_eq_false_iff_not] at shaped
        exact shaped.1.1
      exact ⟨⟨id, source, readId, filled, required_source obj readSource known,
        (textOf_of_stringField obj readSource).symm, kind, categories, minTier⟩⟩

theorem constraintRule_eq (a : Accepted obj) : constraintRule (.obj obj) =
    (trimmed a.id).bind fun id => (field obj "decl").map fun decl =>
      { asValidated obj with id := id, decl := decl } := by
  have kind := a.kind
  cases named : field obj "kind" with
  | none => simp [named] at kind
  | some k =>
    cases k with
    | none => simp [named] at kind
    | some k =>
      rw [named] at kind
      have read : kindOf obj k = some (validKind obj ((textOf obj "kind").getD "")) := kind
      have id : required obj "id" = trimmed a.id := by
        rw [required, field_of_stringField obj a.readId, ← textOf_of_stringField obj a.readId,
          Option.join_some, Option.bind_some]
      simp only [constraintRule, Json.asObject, Option.bind_eq_bind, Option.bind_some, named,
        read, a.categories, a.minTier, id, a.source_read, asValidated, a.source_text]
      cases trimmed a.id <;> cases field obj "decl" <;> rfl

theorem constraintRule_iff (print : Printing) {allowRule : Bool}
    (accepted : checkEntry print (.obj obj) allowRule = .ok ()) :
    constraintRule (.obj obj) = some (asValidated obj) ↔ Legible obj := by
  obtain ⟨a⟩ := checkEntry_ok obj print accepted
  have id : textOf obj "id" = some a.id := (textOf_of_stringField obj a.readId).symm
  rw [constraintRule_eq obj a, field_decl, Legible, id, Option.getD_some,
    ← trimmed_iff a.filled]
  cases read : trimmed a.id with
  | none => simp
  | some t =>
    by_cases decl : nullable (obj.lookup "decl") = true ∨ (textOf obj "decl").isSome = true
    · simp [decl, asValidated, id]
    · simp [decl]

end Accepted

section Look
variable {f : Json → Json}

/-- `f` leaves of a value what the readers of an entry look at. -/
inductive Look (f : Json → Json) : Json → Json → Prop
  | null : Look f .null .null
  | bool (b) : Look f (.bool b) (.bool b)
  | posInt (n) : Look f (.posInt n) (.posInt n)
  | negInt (n) : Look f (.negInt n) (.negInt n)
  | float (x y) : Look f (.float x) (.float y)
  | str (s) : Look f (.str s) (.str s)
  | arr (items) : Look f (.arr (items.map f)) (.arr items)
  | obj {new old : Fields} (same : ∀ key, new.lookup key = (old.lookup key).map f) :
    Look f (.obj new) (.obj old)

theorem Look.asStr_eq {w v : Json} (h : Look f w v) : w.asStr = v.asStr := by
  cases h <;> rfl

theorem Look.asArray_eq {w v : Json} (h : Look f w v) :
    w.asArray = v.asArray.map (List.map f) := by
  cases h <;> rfl

theorem read_eq {α : Type} (shape : ∀ v, Look f (f v) v) (g : Option Json → α)
    (blind : ∀ w v, Look f w v → g (some w) = g (some v)) {o o' : Option Json}
    (same : o' = o.map f) : g o' = g o := by
  cases o with
  | none => rw [same, Option.map_none]
  | some v => rw [same, Option.map_some, blind _ _ (shape v)]

variable (shape : ∀ v, Look f (f v) v) {new old : Fields}
include shape

theorem stringField_eq {key : String} (same : new.lookup key = (old.lookup key).map f) :
    stringField new key = stringField old key := by
  rw [stringField, stringField, same]
  cases old.lookup key with
  | none => rfl
  | some v =>
    have look := shape v
    rw [Option.map_some]
    generalize f v = w at look
    cases look <;> rfl

theorem texts_eq (items : List Json) :
    ((items.map f).mapM fun v => v.asStr.bind trimmed) =
      items.mapM fun v => v.asStr.bind trimmed := by
  rw [List.mapM_map]
  congr 1
  funext v
  rw [Function.comp_apply, (shape v).asStr_eq]

theorem stringList_eq {key : String} (same : new.lookup key = (old.lookup key).map f) :
    stringList new key = stringList old key := by
  rw [stringList, stringList, same]
  cases old.lookup key with
  | none => rfl
  | some v =>
    simp only [Option.map_some, Option.bind_eq_bind, Option.bind_some, (shape v).asArray_eq]
    cases v.asArray with
    | none => rfl
    | some items => simp only [Option.map_some, Option.bind_some, texts_eq shape]

theorem flag_eq {key : String} (same : new.lookup key = (old.lookup key).map f) :
    flag (new.lookup key) = flag (old.lookup key) := by
  apply read_eq shape flag _ same
  intro w v h
  cases h <;> rfl

theorem nullable_eq {key : String} (same : new.lookup key = (old.lookup key).map f) :
    nullable (new.lookup key) = nullable (old.lookup key) := by
  apply read_eq shape nullable _ same
  intro w v h
  cases h <;> rfl

theorem u32Of_eq {key : String} (same : new.lookup key = (old.lookup key).map f) :
    u32Of (new.lookup key) = u32Of (old.lookup key) := by
  apply read_eq shape u32Of _ same
  intro w v h
  cases h <;> rfl

theorem categoriesOf_eq (same : new.lookup "categories" = (old.lookup "categories").map f) :
    categoriesOf new = categoriesOf old := by
  rw [categoriesOf, categoriesOf, same]
  cases old.lookup "categories" with
  | none => rfl
  | some v =>
    have look := shape v
    rw [Option.map_some]
    generalize f v = w at look
    cases look with
    | arr items =>
      show (items.map f).mapM Json.asStr = items.mapM Json.asStr
      rw [List.mapM_map]
      congr 1
      funext v
      exact (shape v).asStr_eq
    | _ => rfl

theorem kindOf_eq (same : ∀ key, key ≠ "status" → new.lookup key = (old.lookup key).map f) :
    kindOf new = kindOf old := by
  have text : ∀ key, key ≠ "status" → field new key = field old key := by
    intro key ne
    rw [field, field, stringField_eq shape (same key ne)]
  have req : ∀ key, key ≠ "status" → required new key = required old key := by
    intro key ne
    rw [required, required, text key ne]
  have list : ∀ key, key ≠ "status" → stringList new key = stringList old key :=
    fun key ne => stringList_eq shape (same key ne)
  have yes : ∀ key, key ≠ "status" → flag (new.lookup key) = flag (old.lookup key) :=
    fun key ne => flag_eq shape (same key ne)
  have via : viaOf new = viaOf old := by
    rw [viaOf, viaOf, nullable_eq shape (same "via" (by decide)), list "via" (by decide)]
  have rule : ruleOf new = ruleOf old := by
    rw [ruleOf, ruleOf, text "rule" (by decide)]
  have rank := u32Of_eq shape (same "rank" (by decide))
  funext kind
  unfold kindOf
  rw [req "from" (by decide), req "to" (by decide), req "text" (by decide),
    req "name" (by decide), yes "transitive" (by decide), yes "strict" (by decide), via, rule,
    text "scope" (by decide), list "paths" (by decide), list "components" (by decide), rank]

theorem constraintRule_fields
    (same : ∀ key, key ≠ "status" → new.lookup key = (old.lookup key).map f) :
    constraintRule (.obj new) = constraintRule (.obj old) := by
  have text : ∀ key, key ≠ "status" → field new key = field old key := by
    intro key ne
    rw [field, field, stringField_eq shape (same key ne)]
  have req : ∀ key, key ≠ "status" → required new key = required old key := by
    intro key ne
    rw [required, required, text key ne]
  have tier : minTierOf new = minTierOf old := by
    rw [minTierOf, minTierOf, text "min_tier" (by decide)]
  simp only [constraintRule, Json.asObject, Option.bind_eq_bind, Option.bind_some,
    kindOf_eq shape same, categoriesOf_eq shape (same "categories" (by decide)), tier,
    text "kind" (by decide), text "decl" (by decide), req "id" (by decide),
    req "source" (by decide)]

theorem constraintRule_look {w v : Json} (h : Look f w v) :
    constraintRule w = constraintRule v := by
  cases h with
  | obj same => exact constraintRule_fields shape fun key _ => same key
  | _ => rfl

end Look

section Stored

theorem canonicalItems_eq (items : List Json) :
    Json.canonicalItems items = items.map Json.canonical := by
  induction items with
  | nil => rfl
  | cons v vs ih => rw [Json.canonicalItems, ih, List.map_cons]

theorem blurItems_eq (items : List Json) : Json.blurItems items = items.map Json.blurFloats := by
  induction items with
  | nil => rfl
  | cons v vs ih => rw [Json.blurItems, ih, List.map_cons]

theorem canonicalFields_lookup (fields : Fields) (key : String) :
    (Json.canonicalFields fields).lookup key = (fields.lookup key).map Json.canonical := by
  induction fields with
  | nil => rfl
  | cons e fields ih =>
    obtain ⟨k, v⟩ := e
    rw [Json.canonicalFields, List.lookup_cons, List.lookup_cons, ih]
    cases key == k <;> rfl

theorem blurFields_lookup (fields : Fields) (key : String) :
    (Json.blurFields fields).lookup key = (fields.lookup key).map Json.blurFloats := by
  induction fields with
  | nil => rfl
  | cons e fields ih =>
    obtain ⟨k, v⟩ := e
    rw [Json.blurFields, List.lookup_cons, List.lookup_cons, ih]
    cases key == k <;> rfl

theorem orderedInsert_lookup (e : String × Json) (fields : Fields) (key : String) :
    (fields.orderedInsert (fun a b => a.1 ≤ b.1) e).lookup key = (e :: fields).lookup key := by
  induction fields with
  | nil => rfl
  | cons h fields ih =>
    rw [List.orderedInsert_cons]
    split
    · rfl
    · rename_i later
      rw [List.lookup_cons, ih, List.lookup_cons, List.lookup_cons, List.lookup_cons]
      cases first : key == h.1 with
      | false => rfl
      | true =>
        have ne : (key == e.1) = false := by
          rw [beq_eq_false_iff_ne]
          rintro rfl
          exact later (beq_iff_eq.mp first).le
        rw [ne]

theorem sortFields_lookup (fields : Fields) (key : String) :
    (Json.sortFields fields).lookup key = fields.lookup key := by
  rw [Json.sortFields]
  induction fields with
  | nil => rfl
  | cons e fields ih =>
    rw [List.insertionSort_cons, orderedInsert_lookup, List.lookup_cons, List.lookup_cons, ih]

theorem look_canonical (v : Json) : Look Json.canonical v.canonical v := by
  cases v with
  | arr items =>
    rw [Json.canonical, canonicalItems_eq]
    exact .arr items
  | obj fields =>
    rw [Json.canonical]
    apply Look.obj
    intro key
    rw [sortFields_lookup, canonicalFields_lookup]
  | _ => constructor

theorem look_blurFloats (v : Json) : Look Json.blurFloats v.blurFloats v := by
  cases v with
  | arr items =>
    rw [Json.blurFloats, blurItems_eq]
    exact .arr items
  | obj fields =>
    rw [Json.blurFloats]
    apply Look.obj
    exact blurFields_lookup fields
  | _ => constructor

theorem constraintRule_canonical (v : Json) : constraintRule v.canonical = constraintRule v :=
  constraintRule_look look_canonical (look_canonical v)

theorem constraintRule_blurFloats (v : Json) : constraintRule v.blurFloats = constraintRule v :=
  constraintRule_look look_blurFloats (look_blurFloats v)

theorem mapText_lookup (g : String → String) {name key : String} (ne : key ≠ name)
    (fields : Fields) : (mapText g name fields).lookup key = fields.lookup key := by
  induction fields with
  | nil => rfl
  | cons e fields ih =>
    obtain ⟨k, v⟩ := e
    by_cases named : k = name
    · subst named
      have other : (key == k) = false := by simpa using ne
      cases v <;> simp [mapText, List.lookup_cons, other]
    · simp only [mapText, named, if_false, List.lookup_cons, ih]

theorem constraintRule_storedEntry (lower : String → String) (fields : Fields) :
    constraintRule (storedEntry lower (.obj fields)) = constraintRule (.obj fields) := by
  rw [storedEntry, Json.canonical]
  apply constraintRule_fields look_canonical
  intro key ne
  rw [mapText_lookup lower ne, sortFields_lookup, canonicalFields_lookup]

section Nesting

theorem nestingItems_le (items : List Json) (n : Nat) :
    Json.nestingItems items ≤ n ↔ ∀ v ∈ items, v.nesting ≤ n := by
  induction items with
  | nil => simp [Json.nestingItems]
  | cons v vs ih => simp [Json.nestingItems, ih]

theorem nestingFields_le (fields : Fields) (n : Nat) :
    Json.nestingFields fields ≤ n ↔ ∀ e ∈ fields, e.2.nesting ≤ n := by
  induction fields with
  | nil => simp [Json.nestingFields]
  | cons e fields ih =>
    obtain ⟨k, v⟩ := e
    simp [Json.nestingFields, ih]

theorem nestingFields_perm {fields fields' : Fields} (perm : fields.Perm fields') :
    Json.nestingFields fields = Json.nestingFields fields' := by
  apply eq_of_forall_ge_iff
  intro n
  simp only [nestingFields_le, perm.mem_iff]

theorem nestingItems_perm {items items' : List Json} (perm : items.Perm items') :
    Json.nestingItems items = Json.nestingItems items' := by
  apply eq_of_forall_ge_iff
  intro n
  simp only [nestingItems_le, perm.mem_iff]

mutual

theorem nesting_canonical : ∀ v : Json, v.canonical.nesting = v.nesting
  | .arr items => by
    rw [Json.canonical, Json.nesting, Json.nesting, nestingItems_canonical items]
  | .obj fields => by
    rw [Json.canonical, Json.nesting, Json.nesting, Json.sortFields,
      nestingFields_perm (List.perm_insertionSort _ _), nestingFields_canonical fields]
  | .null | .bool _ | .posInt _ | .negInt _ | .float _ | .str _ => rfl

theorem nestingItems_canonical : ∀ items : List Json,
    Json.nestingItems (Json.canonicalItems items) = Json.nestingItems items
  | [] => rfl
  | v :: vs => by
    rw [Json.canonicalItems, Json.nestingItems, Json.nestingItems, nesting_canonical v,
      nestingItems_canonical vs]

theorem nestingFields_canonical : ∀ fields : Fields,
    Json.nestingFields (Json.canonicalFields fields) = Json.nestingFields fields
  | [] => rfl
  | (k, v) :: fields => by
    rw [Json.canonicalFields, Json.nestingFields, Json.nestingFields, nesting_canonical v,
      nestingFields_canonical fields]

end

theorem nestingFields_mapText (g : String → String) (name : String) (fields : Fields) :
    Json.nestingFields (mapText g name fields) = Json.nestingFields fields := by
  induction fields with
  | nil => rfl
  | cons e fields ih =>
    obtain ⟨k, v⟩ := e
    by_cases named : k = name
    · cases v <;> simp [mapText, named, Json.nestingFields, Json.nesting]
    · simp only [mapText, named, if_false, Json.nestingFields, ih]

theorem nesting_storedEntry (lower : String → String) (v : Json) :
    (storedEntry lower v).nesting = v.nesting := by
  rw [← nesting_canonical v, storedEntry]
  split
  · rename_i fields same
    rw [same, Json.nesting, Json.nesting, nestingFields_mapText]
  · rfl

end Nesting

section Merged
variable (serde : Serde) (lower : String → String)

def existingEntries : Option CellPayload → Option (List Json)
  | none => some []
  | some p => entryArray serde p

def mergedArray (entries : List Json) (v : Json) : Json :=
  (Json.arr (sortEntries (others lower entries v ++ [storedEntry lower v]))).canonical

theorem mergeEntry_eq {existing : Option CellPayload} {entries : List Json}
    (held : existingEntries serde existing = some entries) (v : Json) :
    mergeEntry serde lower existing v = .ok (.json (serde.toText (mergedArray lower entries v))) := by
  cases existing with
  | none =>
    cases held
    rfl
  | some p =>
    rw [existingEntries] at held
    simp only [mergeEntry, held]
    rfl

theorem nesting_mergedArray (entries : List Json) (v : Json) :
    (mergedArray lower entries v).nesting = (Json.arr (v :: others lower entries v)).nesting := by
  have sorted := (List.perm_insertionSort (fun a b => entryKey a ≤ entryKey b)
    (others lower entries v ++ [storedEntry lower v])).trans (List.perm_append_singleton _ _)
  rw [mergedArray, nesting_canonical, Json.nesting, Json.nesting, sortEntries,
    nestingItems_perm sorted, Json.nestingItems, Json.nestingItems, nesting_storedEntry]

theorem parseConstraints_stored {entries : List Json} {v : Json}
    (back : serde.ReadsBack (mergedArray lower entries v))
    (shallow : (mergedArray lower entries v).nesting ≤ Serde.maxNesting) :
    parseConstraints serde (.json (serde.toText (mergedArray lower entries v))) =
      (sortEntries (others lower entries v ++ [storedEntry lower v])).filterMap
        constraintRule := by
  rw [Serde.ReadsBack, if_pos shallow] at back
  obtain ⟨w, read, same⟩ := Option.map_eq_some_iff.mp back
  rw [parseConstraints, entryArray, read, Option.bind_some]
  rw [mergedArray, Json.canonical, canonicalItems_eq, Json.blurFloats, blurItems_eq] at same
  cases w with
  | arr items =>
    rw [Json.blurFloats, blurItems_eq, Json.arr.injEq] at same
    have rules := congrArg (List.filterMap constraintRule) same
    simpa only [List.filterMap_map, Function.comp_def, constraintRule_blurFloats,
      constraintRule_canonical, Json.asArray, Option.getD_some] using rules
  | _ => cases same

theorem parseConstraints_deep {entries : List Json} {v : Json}
    (back : serde.ReadsBack (mergedArray lower entries v))
    (deep : ¬(mergedArray lower entries v).nesting ≤ Serde.maxNesting) :
    parseConstraints serde (.json (serde.toText (mergedArray lower entries v))) = [] := by
  rw [Serde.ReadsBack, if_neg deep, Option.map_eq_none_iff] at back
  rw [parseConstraints, entryArray, back]
  rfl

theorem parseConstraints_perm_iff (print : Printing) {allowRule : Bool} {obj : Fields}
    (accepted : checkEntry print (.obj obj) allowRule = .ok ()) {entries : List Json}
    (back : serde.ReadsBack (mergedArray lower entries (.obj obj))) :
    (parseConstraints serde (.json (serde.toText (mergedArray lower entries (.obj obj))))).Perm
        (asValidated obj :: (others lower entries (.obj obj)).filterMap constraintRule) ↔
      Legible obj ∧
        (mergedArray lower entries (.obj obj)).nesting ≤ Serde.maxNesting := by
  by_cases shallow : (mergedArray lower entries (.obj obj)).nesting ≤ Serde.maxNesting
  · rw [parseConstraints_stored serde lower back shallow, and_iff_left shallow,
      ← constraintRule_iff obj print accepted]
    have sorted := ((List.perm_insertionSort (fun a b => entryKey a ≤ entryKey b)
      (others lower entries (.obj obj) ++ [storedEntry lower (.obj obj)])).trans
        (List.perm_append_singleton _ _)).filterMap constraintRule
    rw [sortEntries, List.Perm.congr_left sorted]
    cases read : constraintRule (.obj obj) with
    | none =>
      rw [List.filterMap_cons_none (by rw [constraintRule_storedEntry, read])]
      constructor
      · intro perm
        exact absurd perm.length_eq (by simp)
      · intro none_some
        cases none_some
    | some rule =>
      rw [List.filterMap_cons_some (by rw [constraintRule_storedEntry, read]),
        ← Multiset.coe_eq_coe, ← Multiset.cons_coe, ← Multiset.cons_coe,
        Multiset.cons_inj_left, Option.some.injEq]
  · rw [parseConstraints_deep serde lower back shallow]
    constructor
    · intro perm
      exact absurd perm.length_eq (by simp)
    · exact fun h => absurd h.2 shallow


def fieldsOf (v : Json) : Fields := v.asObject.getD []

/-- An accepted entry, merged, reads back as validated beside the others exactly when it is
legible and no container of the array lies too deep to be read. -/
theorem merged_reads_back_iff (print : Printing) {allowRule : Bool} {v : Json}
    (accepted : checkEntry print v allowRule = .ok ()) {existing : Option CellPayload}
    {entries : List Json} (held : existingEntries serde existing = some entries)
    (back : serde.ReadsBack (mergedArray lower entries v)) :
    ∃ stored, mergeEntry serde lower existing v = .ok stored ∧
      ((parseConstraints serde stored).Perm
          (asValidated (fieldsOf v) :: (others lower entries v).filterMap constraintRule) ↔
        Legible (fieldsOf v) ∧
          (Json.arr (v :: others lower entries v)).nesting ≤ Serde.maxNesting) := by
  refine ⟨_, mergeEntry_eq serde lower held v, ?_⟩
  rw [← nesting_mergedArray]
  cases v with
  | obj fields => exact parseConstraints_perm_iff serde lower print accepted back
  | _ => cases accepted

end Merged

end Stored

section Samples

def sampleSerde (text : String) (v : Json) : Serde where
  toText _ := text
  fromStr s := if s = text then some v else none

def samplePrinting : Printing := ⟨fun s => "\"" ++ s ++ "\"", fun _ => ""⟩

def invariantEntry (id : String) : Fields :=
  [("source", .str "api"), ("id", .str id), ("kind", .str "invariant"), ("text", .str "t")]

def invariantText (id : String) : String :=
  "[\x7b\"id\":\"" ++ id ++ "\",\"kind\":\"invariant\",\"source\":\"api\",\"text\":\"t\"\x7d]"

def invariantSerde (id : String) : Serde :=
  sampleSerde (invariantText id) (mergedArray (fun s => s) [] (.obj (invariantEntry id)))

theorem merged_reads_back_invariant : ∃ stored,
    mergeEntry (invariantSerde "r1") (fun s => s) none (.obj (invariantEntry "r1")) = .ok stored ∧
      (parseConstraints (invariantSerde "r1") stored).Perm [asValidated (invariantEntry "r1")] := by
  have accepted : checkEntry samplePrinting (.obj (invariantEntry "r1")) false = .ok () := by
    decide +kernel
  have back : (invariantSerde "r1").ReadsBack
      (mergedArray (fun s => s) [] (.obj (invariantEntry "r1"))) := by
    have shallow : (mergedArray (fun s => s) [] (.obj (invariantEntry "r1"))).nesting ≤
      Serde.maxNesting := by decide +kernel
    rw [Serde.ReadsBack, if_pos shallow]
    simp [invariantSerde, sampleSerde]
  have nothing : existingEntries (invariantSerde "r1") none = some [] := rfl
  obtain ⟨stored, merged, reads⟩ := merged_reads_back_iff (invariantSerde "r1") (fun s => s)
    samplePrinting accepted nothing back
  have legible : Legible (invariantEntry "r1") := by
    constructor
    · decide +kernel
    · exact .inl rfl
  exact ⟨stored, merged, reads.mpr ⟨legible, by decide +kernel⟩⟩

/-- A blank id is accepted and stored, and read by nobody. -/
theorem blank_id_dropped :
    validateEntry samplePrinting (.obj (invariantEntry " ")) = .ok () ∧
      (invariantSerde " ").ReadsBack (mergedArray (fun s => s) [] (.obj (invariantEntry " "))) ∧
      mergeEntry (invariantSerde " ") (fun s => s) none (.obj (invariantEntry " ")) =
        .ok (.json (invariantText " ")) ∧
      parseConstraints (invariantSerde " ") (.json (invariantText " ")) = [] := by
  refine ⟨by decide +kernel, ?_, rfl, by decide +kernel⟩
  have shallow : (mergedArray (fun s => s) [] (.obj (invariantEntry " "))).nesting ≤
    Serde.maxNesting := by decide +kernel
  rw [Serde.ReadsBack, if_pos shallow]
  simp [invariantSerde, sampleSerde]

end Samples

end Glia.ExternalInputs
