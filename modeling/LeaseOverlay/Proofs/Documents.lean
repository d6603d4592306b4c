import LeaseOverlay.Config.Document
import LeaseOverlay.Proofs.Codec

namespace LeaseOverlay

inductive Shape : Type → Type
  | text : Shape String
  | texts : Shape (List String)
  | number (bound : Nat) : Shape Nat
  | flag : Shape Bool
  | choice : Shape SeedingKind

namespace Toml.Value

/-- What stands for a field: in a table under its key, in an array at its place. -/
def field? (names : List String) (name : String) : Value → Option Value
  | table fs => fs.lookup name
  | array vs => vs[names.idxOf name]?
  | _ => none

/-- A record is a table that repeats none of its fields, an array of them in order, or a moment,
which has none of them. -/
def IsRecord (names : List String) : Value → Prop
  | table fs => ((fs.map (·.1)).filter (· ∈ names)).Nodup
  | array _ => True
  | moment _ => True
  | _ => False

theorem itemsToJson_eq_map (vs : List Value) : itemsToJson vs = vs.map toJson := by
  induction vs with
  | nil => rfl
  | cons v vs ih => rw [itemsToJson, ih, List.map_cons]

theorem fieldsToJson_eq_map (fs : List (String × Value)) :
    fieldsToJson fs = fs.map fun f => (.ofString f.1, f.2.toJson) := by
  induction fs with
  | nil => rfl
  | cons f fs ih => rw [fieldsToJson, ih, List.map_cons]

theorem toJson_table (fs : List (String × Value)) :
    (table fs).toJson = .ofFields (fs.map fun f => (f.1, f.2.toJson)) := by
  rw [toJson, fieldsToJson_eq_map, Json.Value.ofFields, List.map_map]
  rfl

theorem toJson_array (vs : List Value) : (array vs).toJson = .array (vs.map toJson) := by
  rw [toJson, itemsToJson_eq_map]

mutual

theorem plain_toJson : ∀ v : Value, v.toJson.plain = true
  | .string _ => rfl
  | .integer _ => rfl
  | .float _ => rfl
  | .boolean _ => rfl
  | .moment _ => rfl
  | .array vs => plainItems_itemsToJson vs
  | .table fs => plainFields_fieldsToJson fs

theorem plainItems_itemsToJson : ∀ vs : List Value, Json.Value.plainItems (itemsToJson vs) = true
  | [] => rfl
  | v :: vs => by
    rw [itemsToJson, Json.Value.plainItems, plain_toJson v, plainItems_itemsToJson vs]
    rfl

theorem plainFields_fieldsToJson :
    ∀ fs : List (String × Value), Json.Value.plainFields (fieldsToJson fs) = true
  | [] => rfl
  | (k, v) :: fs => by
    rw [fieldsToJson, Json.Value.plainFields, plain_toJson v, plainFields_fieldsToJson fs]
    rfl

end

end Toml.Value

namespace Shape

open Toml (Value)

def Names (v : Value) (name : String) : Prop :=
  v = .string name ∨ v = .table [(name, .array [])] ∨ v = .table [(name, .table [])]

def Denotes {α : Type} : Shape α → Value → α → Prop
  | text, v, s => v = .string s
  | texts, v, ss => v = .array (ss.map .string)
  | number bound, v, n => v = .integer n ∧ n < bound
  | flag, v, b => v = .boolean b
  | choice, v, k => Names v k.name

def read? {α : Type} : Shape α → Json.Value → Option α
  | text => Json.Value.string?
  | texts => Json.Value.list? Json.Value.string?
  | number bound => Json.Value.natBelow? bound
  | flag => Json.Value.bool?
  | choice => ConfigFormat.toml.seedingKind?

variable {α : Type} {σ : Shape α} {v : Value} {a d : α}

theorem string?_toJson {s : String} : v.toJson.string? = some s ↔ v = .string s := by
  cases v <;> simp [Value.toJson, Json.Value.string?, Json.Value.ofString, Json.Value.ofInt,
    Json.Value.ofFields]

theorem mapM_string?_toJson {vs : List Value} {ss : List String} :
    (vs.map Value.toJson).mapM Json.Value.string? = some ss ↔ vs = ss.map .string := by
  induction vs generalizing ss with
  | nil => cases ss <;> simp
  | cons v vs ih =>
    simp only [List.map_cons, List.mapM_cons, Option.bind_eq_bind, Option.bind_eq_some_iff,
      Option.pure_def, Option.some.injEq, string?_toJson, ih]
    constructor
    · rintro ⟨s, rfl, ss, rfl, rfl⟩
      rfl
    · intro h
      cases ss with
      | nil => cases h
      | cons s ss =>
        obtain ⟨rfl, rfl⟩ := List.cons.inj h
        exact ⟨s, rfl, ss, rfl, rfl⟩

theorem list?_toJson {ss : List String} :
    v.toJson.list? Json.Value.string? = some ss ↔ v = .array (ss.map .string) := by
  cases v with
  | array vs =>
    simp only [Value.toJson, Value.itemsToJson_eq_map, Json.Value.list?, mapM_string?_toJson,
      Value.array.injEq]
  | _ =>
    simp [Value.toJson, Json.Value.list?, Json.Value.ofString, Json.Value.ofInt,
      Json.Value.ofFields]

theorem natBelow?_toJson {bound n : Nat} :
    v.toJson.natBelow? bound = some n ↔ v = .integer n ∧ n < bound := by
  cases v with
  | integer i =>
    simp only [Value.toJson, Json.Value.natBelow?, Json.Value.ofInt, Json.Number.toNat?,
      Json.Number.ofInt, true_and, Option.filter_eq_some_iff, decide_eq_true_eq,
      Value.integer.injEq, Option.ite_none_right_eq_some, Option.some.injEq]
    omega
  | _ =>
    simp [Value.toJson, Json.Value.natBelow?, Json.Value.ofString, Json.Value.ofFields,
      Json.Number.toNat?]

theorem bool?_toJson {b : Bool} : v.toJson.bool? = some b ↔ v = .boolean b := by
  cases v <;> simp [Value.toJson, Json.Value.bool?, Json.Value.ofString, Json.Value.ofInt,
    Json.Value.ofFields]

theorem isPayload_toJson :
    ConfigFormat.toml.isPayload v.toJson = true ↔ v = .array [] ∨ v = .table [] := by
  cases v with
  | array vs => cases vs <;> simp [Value.toJson, Value.itemsToJson, ConfigFormat.toml]
  | table fs => cases fs <;> simp [Value.toJson, Value.fieldsToJson, ConfigFormat.toml]
  | _ =>
    simp [Value.toJson, ConfigFormat.toml, Json.Value.ofString, Json.Value.ofInt,
      Json.Value.ofFields]

theorem seedingKind?_ofString {name : String} {k : SeedingKind} :
    ConfigFormat.toml.seedingKind? (.ofString name) = some k ↔ name = k.name := by
  simp only [ConfigFormat.seedingKind?, Json.Value.ofString, Json.Value.string?,
    Json.Text.toString?_ofString, Option.bind_eq_bind, Option.bind_some]
  split <;> cases k <;> simp_all [SeedingKind.name]

theorem seedingKind?_object (key : String) (payload : Json.Value) :
    ConfigFormat.toml.seedingKind? (.object [(.ofString key, payload)]) =
      if ConfigFormat.toml.isPayload payload then ConfigFormat.toml.seedingKind? (.ofString key)
      else none := by
  simp only [ConfigFormat.seedingKind?, Json.Value.ofString, Json.Value.string?,
    Json.Text.toString?_ofString]
  split <;> rfl

theorem seedingKind?_toJson {k : SeedingKind} :
    ConfigFormat.toml.seedingKind? v.toJson = some k ↔ Names v k.name := by
  unfold Names
  cases v with
  | string s => simp [Value.toJson, seedingKind?_ofString]
  | table fs =>
    obtain _ | ⟨⟨name, w⟩, _ | ⟨_, _⟩⟩ := fs
    · simp [Value.toJson, Value.fieldsToJson, ConfigFormat.seedingKind?, Json.Value.string?]
    · simp only [Value.toJson, Value.fieldsToJson, seedingKind?_object,
        Option.ite_none_right_eq_some, isPayload_toJson, seedingKind?_ofString]
      rw [and_comm, and_or_left]
      simp
    · simp [Value.toJson, Value.fieldsToJson, ConfigFormat.seedingKind?, Json.Value.string?]
  | moment text =>
    have hpayload : ConfigFormat.toml.isPayload (.ofString text) = false := rfl
    simp [Value.toJson, Json.Value.ofFields, seedingKind?_object, hpayload]
  | _ =>
    simp [Value.toJson, ConfigFormat.seedingKind?, Json.Value.string?, Json.Value.ofInt]

theorem read?_toJson : σ.read? v.toJson = some a ↔ σ.Denotes v a := by
  cases σ with
  | text => exact string?_toJson
  | texts => exact list?_toJson
  | number => exact natBelow?_toJson
  | flag => exact bool?_toJson
  | choice => exact seedingKind?_toJson

end Shape

namespace Toml.Value

open Json (Record Slot)

variable {α : Type} {names : List String} {name : String} {v : Value} {r : Record}

theorem lookup_map_toJson (fs : List (String × Value)) :
    (fs.map fun f => (f.1, f.2.toJson)).lookup name = (fs.lookup name).map toJson := by
  induction fs with
  | nil => rfl
  | cons f fs ih =>
    obtain ⟨key, v⟩ := f
    simp only [List.map_cons, List.lookup_cons, ih]
    cases name == key <;> rfl

theorem lookup_known (hname : name ∈ names) (fs : List (String × Json.Value)) :
    (fs.filter fun f => names.contains f.1).lookup name = fs.lookup name := by
  induction fs with
  | nil => rfl
  | cons f fs ih =>
    obtain ⟨key, v⟩ := f
    by_cases hkey : name = key
    · subst hkey
      simp [hname]
    · have hne : (name == key) = false := beq_false_of_ne hkey
      rw [List.filter_cons, List.lookup_cons, hne]
      split
      · rw [List.lookup_cons, hne, ih]
      · exact ih

theorem ofFields_eq_some_iff {fs : List (String × Json.Value)}
    (hplain : ∀ f ∈ fs, f.2.plain = true) :
    Record.ofFields names fs = some r ↔ ((fs.map (·.1)).filter (· ∈ names)).Nodup ∧
      r = ⟨names.map fun n => (n, Record.slotIn fs n)⟩ := by
  have hkeys : (fs.filter fun f => names.contains f.1).map (·.1) =
      (fs.map (·.1)).filter (· ∈ names) := by
    rw [List.filter_map]
    congr 2
    funext f
    simp
  have hunknown : (fs.filter fun f => !names.contains f.1).all (fun f => f.2.plain) = true :=
    List.all_eq_true.mpr fun f hf => hplain f (List.mem_of_mem_filter hf)
  have hslots : (names.map fun n => (n, Record.slotIn (fs.filter fun f => names.contains f.1) n)) =
      names.map fun n => (n, Record.slotIn fs n) := by
    refine List.map_congr_left fun n hn => ?_
    rw [Record.slotIn, lookup_known hn, Record.slotIn]
  simp only [Record.ofFields, hkeys, hunknown, and_true, Option.ite_none_right_eq_some,
    Option.some.injEq]
  rw [eq_comm (b := r), ← hslots]
  rfl

theorem slots_of_take (names : List String) (vs : List Json.Value) :
    ∃ slots, Record.ofItems names (vs.take names.length) = some slots ∧ ∀ name ∈ names,
      slots.lookup name = some ((vs[names.idxOf name]?).elim .cut .given) := by
  induction names generalizing vs with
  | nil => exact ⟨[], rfl, by simp⟩
  | cons n ns ih =>
    obtain ⟨slots, hslots, hlookup⟩ := ih vs.tail
    refine ⟨(n, (vs[0]?).elim .cut .given) :: slots, ?_, fun name hname => ?_⟩
    · cases vs with
      | nil =>
        rw [List.tail_nil, List.take_nil] at hslots
        simp [Record.ofItems, hslots]
      | cons v vs =>
        rw [List.tail_cons] at hslots
        simp [Record.ofItems, hslots]
    · by_cases hn : name = n
      · subst hn
        simp
      · have hne : (name == n) = false := beq_false_of_ne hn
        have hrest := hlookup name ((List.mem_cons.mp hname).resolve_left hn)
        rw [List.lookup_cons, hne, List.idxOf_cons_ne ns (Ne.symm hn), ← List.getElem?_tail]
        exact hrest

theorem record?_ofFields {fs : List (String × Json.Value)} :
    ConfigFormat.toml.record? names (.ofFields fs) = Record.ofFields names fs := by
  change (Json.Value.ofFields fs).fields?.bind (Record.ofFields names) = _
  rw [Json.Value.fields?_ofFields, Option.bind_some]

theorem record?_table_eq_some_iff {fs : List (String × Value)} :
    ConfigFormat.toml.record? names (table fs).toJson = some r ↔
      (table fs).IsRecord names ∧
        r = ⟨names.map fun n => (n, Record.slotIn (fs.map fun f => (f.1, f.2.toJson)) n)⟩ := by
  have hplain : ∀ f ∈ fs.map fun f => (f.1, f.2.toJson), f.2.plain = true := by
    intro f hf
    obtain ⟨e, _, rfl⟩ := List.mem_map.mp hf
    exact plain_toJson e.2
  rw [toJson_table, record?_ofFields, ofFields_eq_some_iff hplain, List.map_map]
  rfl

theorem record?_moment (text : String) :
    ConfigFormat.toml.record? names (moment text).toJson =
      some ⟨names.map fun n => (n, Record.slotIn [("$moment", .ofString text)] n)⟩ := by
  have hplain : ∀ f ∈ [("$moment", Json.Value.ofString text)], f.2.plain = true :=
    List.forall_mem_singleton.mpr rfl
  rw [toJson, record?_ofFields, ofFields_eq_some_iff hplain]
  exact ⟨(List.pairwise_singleton _ "$moment").filter _, rfl⟩

theorem isRecord_iff :
    v.IsRecord names ↔ ∃ r, ConfigFormat.toml.record? names v.toJson = some r := by
  cases v with
  | table fs => simp [record?_table_eq_some_iff]
  | array vs =>
    obtain ⟨slots, hslots, _⟩ := slots_of_take names (vs.map toJson)
    simp [IsRecord, toJson_array, ConfigFormat.record?, ConfigFormat.toml, Record.ofValue?, hslots]
  | moment text => simp [IsRecord, record?_moment]
  | _ => simp [IsRecord, toJson, ConfigFormat.record?, Record.ofValue?, Json.Value.fields?,
      Json.Value.ofString, Json.Value.ofInt]

theorem slot_of_record (h : ConfigFormat.toml.record? names v.toJson = some r)
    (hname : name ∈ names) (hmoment : name ≠ "$moment") :
    (∃ w, v.field? names name = some w ∧ r.slot name = .given w.toJson) ∨
      v.field? names name = none ∧ (r.slot name = .omitted ∨ r.slot name = .cut) := by
  cases v with
  | table fs =>
    obtain ⟨_, rfl⟩ := record?_table_eq_some_iff.mp h
    rw [Record.slot, Record.lookup_map _ hname, Option.getD_some, Record.slotIn, lookup_map_toJson,
      field?]
    cases fs.lookup name with
    | none => exact .inr ⟨rfl, .inl rfl⟩
    | some w => exact .inl ⟨w, rfl, rfl⟩
  | array vs =>
    obtain ⟨slots, hslots, hlookup⟩ := slots_of_take names (vs.map toJson)
    have hr : r = ⟨slots⟩ := by
      simpa [toJson_array, ConfigFormat.record?, ConfigFormat.toml, Record.ofValue?, hslots,
        eq_comm] using h
    rw [hr, Record.slot, hlookup name hname, Option.getD_some, List.getElem?_map, field?]
    cases vs[names.idxOf name]? with
    | none => exact .inr ⟨rfl, .inr rfl⟩
    | some w => exact .inl ⟨w, rfl, rfl⟩
  | moment text =>
    rw [record?_moment, Option.some.injEq] at h
    rw [← h, Record.slot, Record.lookup_map _ hname, Option.getD_some,
      Record.slotIn_cons_ne hmoment, Record.slotIn_nil]
    exact .inr ⟨rfl, .inl rfl⟩
  | _ => exact (isRecord_iff.mpr ⟨r, h⟩).elim

theorem withDefault_eq_some_iff (h : ConfigFormat.toml.record? names v.toJson = some r)
    (hname : name ∈ names) (hmoment : name ≠ "$moment") {read : Json.Value → Option α} {d a : α} :
    (r.slot name).withDefault read d = some a ↔
      (∀ w, v.field? names name = some w → read w.toJson = some a) ∧
        (v.field? names name = none → a = d) := by
  rcases slot_of_record h hname hmoment with ⟨w, hentry, hslot⟩ | ⟨hentry, hslot | hslot⟩
  · simp [hentry, hslot, Slot.withDefault]
  · simp [hentry, hslot, Slot.withDefault, eq_comm]
  · simp [hentry, hslot, Slot.withDefault, eq_comm]

end Toml.Value

end LeaseOverlay
