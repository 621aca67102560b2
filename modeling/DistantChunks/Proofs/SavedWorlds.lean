import DistantChunks.Proofs.Rereading
import DistantChunks.Records.WorldJson

/-!
# Saved worlds

What is written of a world determines the world: each part is decoded from its document form to
itself, and a saved world is loaded as it was (`World.load_of_save`). This needs the ids of
references and records in lower case, which loading lowers, and numbers that are read back from
their shortest form (`IsReread`), as a number that is not finite is written as null.
-/

namespace DistantChunks

theorem mapM_map_eq_some {α β γ : Type} {f : β → Option γ} {g : α → β} {h : α → γ} {as : List α}
    (hfg : ∀ a ∈ as, f (g a) = some (h a)) : (as.map g).mapM f = some (as.map h) := by
  induction as with
  | nil => rfl
  | cons a as ih =>
    obtain ⟨ha, has⟩ := List.forall_mem_cons.1 hfg
    rw [List.map_cons, List.mapM_cons, ha, ih has]
    rfl

namespace Json

theorem text?_ofText (s : String) : (ofText s).text? = some s := by
  rw [ofText, text?, unescape?, String.toList_ofList, Quoted.unescape?_escape, Option.map_some,
    String.ofList_toList]

/-- The object with the given members, whose names need not be escaped. -/
def ofMembers (ms : List (String × Json)) : Json := .object (ms.map fun m => member m.1 m.2)

theorem IsWritten.ofMembers (ms : List (String × Json)) (h : ∀ m ∈ ms, IsWritten m.2) :
    IsWritten (ofMembers ms) := by
  refine .object ?_ ?_
  · intro m hm
    obtain ⟨⟨name, value⟩, -, rfl⟩ := List.mem_map.1 hm
    exact ⟨name, rfl⟩
  · intro m hm
    obtain ⟨⟨name, value⟩, hmem, rfl⟩ := List.mem_map.1 hm
    exact h (name, value) hmem

theorem members?_ofMembers (ms : List (String × Json)) : (ofMembers ms).members? = some ms := by
  rw [ofMembers, members?]
  refine (mapM_map_eq_some (h := id) fun m _ => ?_).trans (congrArg some (List.map_id ms))
  have hname := text?_ofText m.1
  rw [ofText, text?] at hname
  simp only [member, hname]
  rfl

theorem fieldOnce?_of_mem {ms : List (String × Json)} (hnames : (ms.map Prod.fst).Nodup)
    {m : String × Json} (hm : m ∈ ms) : fieldOnce? ms m.1 = some (some m.2) := by
  have hfilter : ms.filter (·.1 == m.1) = [m] := by
    induction ms with
    | nil => cases hm
    | cons m' ms ih =>
      rw [List.map_cons, List.nodup_cons] at hnames
      obtain ⟨hnew, hnames⟩ := hnames
      rcases List.mem_cons.1 hm with rfl | hm
      · have hrest : ms.filter (·.1 == m.1) = [] := by
          refine List.filter_eq_nil_iff.2 fun m' hm' heq => hnew ?_
          exact eq_of_beq heq ▸ List.mem_map_of_mem hm'
        rw [List.filter_cons_of_pos (by simp), hrest]
      · have hne : (m'.1 == m.1) = false := by
          refine beq_eq_false_iff_ne.2 fun heq => hnew ?_
          exact heq ▸ List.mem_map_of_mem hm
        rw [List.filter_cons_of_neg (by simp [hne]), ih hnames hm]
  rw [fieldOnce?, hfilter]

/-- The members of an object are read back by their names. -/
theorem fields?_ofMembers (ms : List (String × Json)) (hnames : (ms.map Prod.fst).Nodup) :
    (ofMembers ms).fields? (ms.map Prod.fst) = some (ms.map fun m => some m.2) := by
  have hfields : (ms.map Prod.fst).mapM (fieldOnce? ms) = some (ms.map fun m => some m.2) :=
    mapM_map_eq_some fun m hm => fieldOnce?_of_mem hnames hm
  have hmembers := members?_ofMembers ms
  rw [ofMembers] at hmembers ⊢
  rw [fields?, hmembers]
  · exact hfields
  · simp

theorem IsWritten.arrayOf {α : Type} {encode : α → Json} {as : List α}
    (h : ∀ a ∈ as, IsWritten (encode a)) : IsWritten (.array (as.map encode)) := by
  refine .array fun j hj => ?_
  obtain ⟨a, ha, rfl⟩ := List.mem_map.1 hj
  exact h a ha

theorem arrayOf?_map {α : Type} {decode : Json → Option α} {encode : α → Json} {as : List α}
    (h : ∀ a ∈ as, decode (encode a) = some a) :
    arrayOf? decode (.array (as.map encode)) = some as := by
  have has := mapM_map_eq_some (h := id) h
  rwa [List.map_id] at has

end Json

/-- A number in the form in which it is written is read back. -/
def IsReread (x : Float32) : Prop := (Json.ofSingle x).single? = some x

instance (x : Float32) : Decidable (IsReread x) := inferInstanceAs (Decidable (_ = _))

theorem Vec3.isWritten_toJson {v : Vec3 Float32} (hx : IsReread v.x) (hy : IsReread v.y)
    (hz : IsReread v.z) : v.toJson.IsWritten := by
  refine .array ?_
  simp only [List.forall_mem_cons]
  exact ⟨.ofSingle hx, .ofSingle hy, .ofSingle hz, by simp⟩

theorem Vec3.ofJson?_toJson {v : Vec3 Float32} (hx : IsReread v.x) (hy : IsReread v.y)
    (hz : IsReread v.z) : Vec3.ofJson? v.toJson = some v := by
  rw [IsReread] at hx hy hz
  simp [Vec3.ofJson?, Vec3.toJson, Json.array?, hx, hy, hz]

theorem RefNum.isWritten_toJson (n : RefNum) : n.toJson.IsWritten := by
  refine .ofMembers [("content_file", _), ("index", _)] ?_
  simp only [List.forall_mem_cons]
  exact ⟨.ofInt _, .ofNat _, by simp⟩

theorem RefNum.ofJson?_toJson (n : RefNum) : ofJson? n.toJson = some n := by
  have hfields : n.toJson.fields? ["content_file", "index"] =
      some [some (.ofInt n.file.toInt), some (.ofNat n.index.toNat)] :=
    Json.fields?_ofMembers [("content_file", _), ("index", _)] (by simp)
  rw [ofJson?, hfields]
  simp [Json.required, Json.int32?_ofInt, Json.uint32?_ofNat]

theorem RecordKind.isWritten_toJson (k : RecordKind) : k.toJson.IsWritten := .text k.name

theorem RecordKind.ofJson?_toJson (k : RecordKind) : ofJson? k.toJson = some k := by
  have hname : ofName? k.name = some k := by
    cases k <;> decide
  have htext := Json.text?_ofText k.name
  rw [toJson]
  rw [ofJson?, htext]
  · exact hname
  · simp [Json.ofText]

namespace Reference

/-- The numbers that a reference is written with. -/
def numbers (r : Reference) : List Float32 :=
  [r.position.x, r.position.y, r.position.z, r.rotation.x, r.rotation.y, r.rotation.z, r.scale]

theorem isWritten_toJson {r : Reference} (hnumbers : ∀ x ∈ r.numbers, IsReread x) :
    r.toJson.IsWritten := by
  simp only [numbers, List.forall_mem_cons] at hnumbers
  obtain ⟨hpx, hpy, hpz, hrx, hry, hrz, hscale, -⟩ := hnumbers
  refine .ofMembers [("ref_num", _), ("record_type", _), ("id", _), ("position", _),
    ("rotation", _), ("scale", _), ("deleted", _)] ?_
  simp only [List.forall_mem_cons]
  exact ⟨r.number.isWritten_toJson, r.kind.isWritten_toJson, .text r.id,
    Vec3.isWritten_toJson hpx hpy hpz, Vec3.isWritten_toJson hrx hry hrz, .ofSingle hscale,
    .bool r.deleted, by simp⟩

theorem ofJson?_toJson {r : Reference} (hid : lowercase r.id = r.id)
    (hnumbers : ∀ x ∈ r.numbers, IsReread x) : ofJson? r.toJson = some r := by
  have hfields : r.toJson.fields? ["ref_num", "record_type", "id", "position", "rotation", "scale",
      "deleted"] = some [some r.number.toJson, some r.kind.toJson, some (.ofText r.id),
        some r.position.toJson, some r.rotation.toJson, some (.ofSingle r.scale),
        some (.bool r.deleted)] :=
    Json.fields?_ofMembers [("ref_num", _), ("record_type", _), ("id", _), ("position", _),
      ("rotation", _), ("scale", _), ("deleted", _)] (by simp)
  simp only [numbers, List.forall_mem_cons] at hnumbers
  obtain ⟨hpx, hpy, hpz, hrx, hry, hrz, hscale, -⟩ := hnumbers
  have hposition := Vec3.ofJson?_toJson hpx hpy hpz
  have hrotation := Vec3.ofJson?_toJson hrx hry hrz
  rw [IsReread] at hscale
  rw [ofJson?, hfields]
  simp only [Json.required, Json.defaulting, Option.bind_eq_bind, Option.bind_some,
    RefNum.ofJson?_toJson, RecordKind.ofJson?_toJson, Json.text?_ofText, hposition, hrotation,
    hscale, Json.bool?, hid]
  rfl

end Reference

namespace Context

theorem isWritten_toJson {c : Context} (hnumbers : ∀ r ∈ c.refs, ∀ x ∈ r.numbers, IsReread x) :
    c.toJson.IsWritten := by
  refine .ofMembers [("refs", _), ("corrupt", _)] ?_
  simp only [List.forall_mem_cons]
  exact ⟨.arrayOf fun r hr => Reference.isWritten_toJson (hnumbers r hr), .bool c.corrupt, by simp⟩

theorem ofJson?_toJson {c : Context} (hids : ∀ r ∈ c.refs, lowercase r.id = r.id)
    (hnumbers : ∀ r ∈ c.refs, ∀ x ∈ r.numbers, IsReread x) : ofJson? c.toJson = some c := by
  have hfields : c.toJson.fields? ["refs", "corrupt"] =
      some [some (.array (c.refs.map Reference.toJson)), some (.bool c.corrupt)] :=
    Json.fields?_ofMembers [("refs", _), ("corrupt", _)] (by simp)
  have hrefs := Json.arrayOf?_map fun r hr => Reference.ofJson?_toJson (hids r hr) (hnumbers r hr)
  rw [ofJson?, hfields]
  simp only [Json.defaulting, Option.bind_eq_bind, Option.bind_some, hrefs, Json.bool?]
  rfl

end Context

namespace Cell

/-- The references of a cell, of its contexts and leased. -/
def references (c : Cell) : List Reference := c.contexts.flatMap Context.refs ++ c.leased

variable {c : Cell}

theorem mem_references_of_context {d : Context} (hd : d ∈ c.contexts) {r : Reference}
    (hr : r ∈ d.refs) : r ∈ c.references :=
  List.mem_append_left _ (List.mem_flatMap.2 ⟨d, hd, hr⟩)

theorem mem_references_of_leased {r : Reference} (hr : r ∈ c.leased) : r ∈ c.references :=
  List.mem_append_right _ hr

theorem isWritten_toJson (hnumbers : ∀ r ∈ c.references, ∀ x ∈ r.numbers, IsReread x) :
    c.toJson.IsWritten := by
  refine .ofMembers [("x", _), ("y", _), ("contexts", _), ("moved", _), ("leased", _)] ?_
  simp only [List.forall_mem_cons]
  refine ⟨.ofInt _, .ofInt _, .arrayOf fun d hd => ?_, .arrayOf fun n _ => n.isWritten_toJson,
    .arrayOf fun r hr => ?_, by simp⟩
  · exact Context.isWritten_toJson fun r hr => hnumbers r (mem_references_of_context hd hr)
  · exact Reference.isWritten_toJson (hnumbers r (mem_references_of_leased hr))

theorem ofJson?_toJson (hids : ∀ r ∈ c.references, lowercase r.id = r.id)
    (hnumbers : ∀ r ∈ c.references, ∀ x ∈ r.numbers, IsReread x) : ofJson? c.toJson = some c := by
  have hfields : c.toJson.fields? ["x", "y", "contexts", "moved", "leased"] =
      some [some (.ofInt c.x.toInt), some (.ofInt c.y.toInt),
        some (.array (c.contexts.map Context.toJson)), some (.array (c.moved.map RefNum.toJson)),
        some (.array (c.leased.map Reference.toJson))] :=
    Json.fields?_ofMembers [("x", _), ("y", _), ("contexts", _), ("moved", _), ("leased", _)]
      (by simp)
  have hcontexts := Json.arrayOf?_map fun d hd =>
    Context.ofJson?_toJson (fun r hr => hids r (mem_references_of_context hd hr)) fun r hr =>
      hnumbers r (mem_references_of_context hd hr)
  have hmoved := Json.arrayOf?_map fun n (_ : n ∈ c.moved) => RefNum.ofJson?_toJson n
  have hleased := Json.arrayOf?_map fun r hr =>
    Reference.ofJson?_toJson (hids r (mem_references_of_leased hr))
      (hnumbers r (mem_references_of_leased hr))
  rw [ofJson?, hfields]
  simp only [Json.required, Json.defaulting, Option.bind_eq_bind, Option.bind_some,
    Json.int32?_ofInt, Int32.ofInt_toInt, hcontexts, hmoved, hleased]
  rfl

end Cell

theorem ModelRecord.isWritten_toJson (r : ModelRecord) : r.toJson.IsWritten := by
  refine .ofMembers [("record_type", _), ("model", _)] ?_
  simp only [List.forall_mem_cons]
  exact ⟨r.kind.isWritten_toJson, .text r.model, by simp⟩

theorem ModelRecord.ofJson?_toJson (r : ModelRecord) : ofJson? r.toJson = some r := by
  have hfields : r.toJson.fields? ["record_type", "model"] =
      some [some r.kind.toJson, some (.ofText r.model)] :=
    Json.fields?_ofMembers [("record_type", _), ("model", _)] (by simp)
  rw [ofJson?, hfields]
  simp only [Json.required, Json.defaulting, Option.bind_eq_bind, Option.bind_some,
    RecordKind.ofJson?_toJson, Json.text?_ofText]
  rfl

namespace World

theorem modelTable_toList (t : ModelTable) : modelTable t.toList = t := by
  have hlist : modelTable t.toList = Std.ExtTreeMap.ofList t.toList compare := by
    rw [Std.ExtTreeMap.ofList_eq_insertMany_empty, Std.ExtTreeMap.insertMany_list_eq_foldl]
    rfl
  rw [hlist]
  refine Std.ExtTreeMap.ext_getElem? fun id => ?_
  cases hid : t[id]? with
  | some r =>
    exact Std.ExtTreeMap.getElem?_ofList_of_mem Std.ReflCmp.compare_self
      Std.ExtTreeMap.distinct_keys_toList (Std.ExtTreeMap.mem_toList_iff_getElem?_eq_some.2 hid)
  | none =>
    refine Std.ExtTreeMap.getElem?_ofList_of_contains_eq_false ?_
    have hnone : id ∉ t := by
      rw [Std.ExtTreeMap.mem_iff_isSome_getElem?, hid]
      simp
    rwa [Std.ExtTreeMap.map_fst_toList_eq_keys, List.contains_eq_mem, decide_eq_false_iff_not,
      Std.ExtTreeMap.mem_keys]

theorem lowerIds_eq {t : ModelTable} (h : ∀ id ∈ t, lowercase id = id) : lowerIds t = t := by
  have hlist : (t.toList.map fun m => (lowercase m.1, m.2)) = t.toList := by
    refine (List.map_congr_left fun m hm => ?_).trans (List.map_id _)
    have hid := Std.ExtTreeMap.mem_toList_iff_getElem?_eq_some.1 hm
    have hmem : m.1 ∈ t := by
      rw [Std.ExtTreeMap.mem_iff_isSome_getElem?, hid]
      rfl
    exact Prod.ext (h m.1 hmem) rfl
  exact (congrArg modelTable hlist).trans (modelTable_toList t)

theorem modelsOfJson?_toJson (t : ModelTable) :
    modelsOfJson? (.object (t.toList.map fun (id, r) => Json.member id r.toJson)) = some t := by
  have hmembers := Json.members?_ofMembers (t.toList.map fun (id, r) => (id, r.toJson))
  rw [Json.ofMembers, List.map_map] at hmembers
  have hrecord (m : String × ModelRecord) :
      (ModelRecord.ofJson? m.2.toJson).bind (fun r => some (m.1, r)) = some m := by
    rw [ModelRecord.ofJson?_toJson]
    rfl
  rw [modelsOfJson?]
  refine (congrArg (Option.bind · _) hmembers).trans ?_
  rw [Option.bind_some, mapM_map_eq_some (h := id), List.map_id]
  · exact congrArg some (modelTable_toList t)
  · exact fun m _ => hrecord m

theorem isWritten_models (t : ModelTable) :
    Json.IsWritten (.object (t.toList.map fun (id, r) => Json.member id r.toJson)) := by
  have hmembers : Json.IsWritten (.ofMembers (t.toList.map fun (id, r) => (id, r.toJson))) := by
    refine .ofMembers _ fun m hm => ?_
    obtain ⟨⟨id, r⟩, -, rfl⟩ := List.mem_map.1 hm
    exact r.isWritten_toJson
  rwa [Json.ofMembers, List.map_map] at hmembers

/-- The references of all cells. -/
def references (w : World) : List Reference := w.cells.flatMap Cell.references

variable {w : World}

theorem mem_references {c : Cell} (hc : c ∈ w.cells) {r : Reference} (hr : r ∈ c.references) :
    r ∈ w.references := List.mem_flatMap.2 ⟨c, hc, hr⟩

theorem isWritten_toJson (hnumbers : ∀ r ∈ w.references, ∀ x ∈ r.numbers, IsReread x) :
    w.toJson.IsWritten := by
  refine .ofMembers [("cells", _), ("models", _)] ?_
  simp only [List.forall_mem_cons]
  refine ⟨.arrayOf fun c hc => ?_, isWritten_models w.models, by simp⟩
  exact Cell.isWritten_toJson fun r hr => hnumbers r (mem_references hc hr)

theorem ofJson?_toJson (hids : ∀ r ∈ w.references, lowercase r.id = r.id)
    (hmodels : ∀ id ∈ w.models, lowercase id = id)
    (hnumbers : ∀ r ∈ w.references, ∀ x ∈ r.numbers, IsReread x) : ofJson? w.toJson = some w := by
  have hfields : w.toJson.fields? ["cells", "models"] =
      some [some (.array (w.cells.map Cell.toJson)),
        some (.object (w.models.toList.map fun (id, r) => Json.member id r.toJson))] :=
    Json.fields?_ofMembers [("cells", _), ("models", _)] (by simp)
  have hcells := Json.arrayOf?_map fun c hc =>
    Cell.ofJson?_toJson (fun r hr => hids r (mem_references hc hr)) fun r hr =>
      hnumbers r (mem_references hc hr)
  rw [ofJson?, hfields]
  simp only [Json.defaulting, Option.bind_eq_bind, Option.bind_some, hcells,
    modelsOfJson?_toJson, lowerIds_eq hmodels]
  rfl

/-- A saved world is loaded as it was. -/
theorem load_of_save (hids : ∀ r ∈ w.references, lowercase r.id = r.id)
    (hmodels : ∀ id ∈ w.models, lowercase id = id)
    (hnumbers : ∀ r ∈ w.references, ∀ x ∈ r.numbers, IsReread x) : load w.save = .ok w := by
  rw [load, save, Json.read?_pretty (isWritten_toJson hnumbers), Option.bind_eq_bind,
    Option.bind_some, ofJson?_toJson hids hmodels hnumbers]

end World

end DistantChunks
