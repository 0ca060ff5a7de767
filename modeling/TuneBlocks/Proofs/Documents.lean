import Mathlib.Data.List.Induction
import TuneBlocks.Graph.Document
import TuneBlocks.Proofs.Reading

/-!
# Graph documents

Nodes that are written as a document of either shape are read back (`Graph.document_roundTrip`). Of
the entries that an accepted document holds, the graph keeps the last one under each key: it keeps
all of them if and only if no key is written twice (`Graph.keeps_last_entries`), and only a table of
nodes, never a list, can write one twice and be accepted.
-/

namespace TuneBlocks

/-! ## Tables from entries -/

namespace Keyed

variable {α : Type u}

theorem ofList_concat (es : List (String × α)) (e : String × α) :
    ofList (es ++ [e]) = (ofList es).insert e.1 e.2 := by
  simp [ofList]

theorem keys_ofList (es : List (String × α)) :
    (ofList es).keys = (es.map Prod.fst).eraseDups := by
  induction es using List.reverseRec with
  | nil => rfl
  | append_singleton es e ih =>
    rw [ofList_concat, keys_insert, ih, List.map_append, List.map_singleton, eraseDups_concat]

theorem get?_ofList (es : List (String × α)) (key : String) :
    (ofList es).get? key = (es.reverse.find? (·.1 == key)).map Prod.snd := by
  induction es using List.reverseRec with
  | nil => rfl
  | append_singleton es e ih =>
    rw [ofList_concat, get?_insert, ih, List.reverse_append]
    by_cases h : key = e.1
    · simp [h]
    · have h' : e.1 ≠ key := fun heq => h heq.symm
      simp [h, h']

theorem entries_ofList {es : List (String × α)} (h : (es.map Prod.fst).Nodup) :
    (ofList es).entries = es := by
  induction es using List.reverseRec with
  | nil => rfl
  | append_singleton es e ih =>
    rw [List.map_append, List.nodup_append] at h
    have hes := ih h.1
    have hkey : e.1 ∉ (ofList es).entries.map Prod.fst := by
      rw [hes]
      exact fun hmem => h.2.2 e.1 hmem e.1 (by simp) rfl
    rw [ofList_concat]
    exact (upsertEntries_of_not_mem _ hkey).trans (by rw [hes])

@[simp] theorem ofList_entries (t : Keyed α) : ofList t.entries = t :=
  Keyed.ext (entries_ofList t.nodup_keys)

theorem length_keys_ofList_le (es : List (String × α)) :
    (ofList es).keys.length ≤ es.length := by
  induction es using List.reverseRec with
  | nil => exact Nat.le_refl 0
  | append_singleton es e ih =>
    rw [ofList_concat, keys_insert, List.length_append]
    split
    · exact Nat.le_add_right_of_le ih
    · rw [List.length_append]
      exact Nat.add_le_add_right ih 1

/-- A table that has a place for every entry comes from distinct keys. -/
theorem nodup_of_length_keys_ofList {es : List (String × α)}
    (h : (ofList es).keys.length = es.length) : (es.map Prod.fst).Nodup := by
  induction es using List.reverseRec with
  | nil => exact .nil
  | append_singleton es e ih =>
    have hle := length_keys_ofList_le es
    rw [ofList_concat, keys_insert, List.length_append, List.length_singleton] at h
    split at h
    · omega
    · next hnew =>
      rw [List.length_append, List.length_singleton, Nat.add_right_cancel_iff] at h
      have hes := ih h
      rw [keys, entries_ofList hes] at hnew
      rw [List.map_append, List.nodup_append]
      refine ⟨hes, by simp, ?_⟩
      intro a ha b hb
      rw [List.map_singleton, List.mem_singleton] at hb
      rintro rfl
      exact hnew (hb ▸ ha)

end Keyed

theorem mapM_eq_some_iff {α : Type u} {β : Type v} {f : α → Option β} {l : List α} {r : List β} :
    l.mapM f = some r ↔ l.map f = r.map some := by
  induction l generalizing r with
  | nil => cases r <;> simp
  | cons a l ih =>
    cases r with
    | nil =>
      simp only [List.mapM_cons, Option.bind_eq_bind, Option.bind_eq_some_iff]
      simp
    | cons b r =>
      simp only [List.mapM_cons, Option.bind_eq_bind, Option.bind_eq_some_iff, Option.pure_def,
        Option.some.injEq, List.cons.injEq, List.map_cons]
      constructor
      · rintro ⟨_, ha, _, hl, rfl, rfl⟩
        exact ⟨ha, ih.1 hl⟩
      · rintro ⟨ha, hl⟩
        exact ⟨b, ha, r, ih.2 hl, rfl, rfl⟩

/-! ## Nodes -/

namespace Value

theorem ofJson?_toJson (v : Value) : ofJson? v.toJson = some v := by
  cases v <;> rfl

def number? : Value → Option Float
  | number x => some x
  | _ => none

end Value

namespace Node

/-- The numbers among the inputs. -/
def numbers (n : Node) : List Float := n.inputs.values.filterMap Value.number?

/-- The fields of a node are texts, but for its inputs. -/
theorem exists_fields (n : Node) : ∃ fs, n.toJson = .object fs ∧
    ∀ f ∈ fs, (∃ s, f.2 = .text s) ∨
      f.2 = .object (n.inputs.entries.map fun e => (e.1, e.2.toJson)) := by
  obtain ⟨id, type, inputs, next, body⟩ := n
  refine ⟨_, rfl, ?_⟩
  cases next <;> cases body <;> simp

theorem depth_toJson (n : Node) : n.toJson.depth ≤ 2 := by
  obtain ⟨fs, hfs, hfields⟩ := n.exists_fields
  rw [hfs, Json.depth]
  apply Nat.succ_le_succ
  apply Json.depthFields_le
  intro f hf
  rcases hfields f hf with ⟨s, heq⟩ | heq
  · rw [heq]
    exact Nat.zero_le 1
  · rw [heq, Json.depth]
    apply Nat.succ_le_succ
    apply Json.depthFields_le
    intro e he
    obtain ⟨⟨k, v⟩, -, rfl⟩ := List.mem_map.1 he
    cases v <;> exact Nat.le_refl 0

theorem text_toJson {n : Node} (h : ∀ x ∈ n.numbers, Json.ReadsBack x) :
    Json.Text n.toJson n.toJson.write := by
  obtain ⟨fs, hfs, hfields⟩ := n.exists_fields
  rw [hfs]
  apply Json.text_object
  intro f hf
  rcases hfields f hf with ⟨s, heq⟩ | heq
  · rw [heq]
    exact Json.text_text s
  · rw [heq]
    apply Json.text_object
    intro e he
    obtain ⟨⟨k, v⟩, hmem, rfl⟩ := List.mem_map.1 he
    cases v with
    | number x =>
      have hx : x ∈ n.numbers :=
        List.mem_filterMap.2 ⟨.number x, List.mem_map_of_mem hmem, rfl⟩
      exact (h x hx).text
    | bool b => exact Json.text_bool b
    | text s => exact Json.text_text s

theorem inputsOfJson?_toJson (t : Keyed Value) :
    inputsOfJson? (.object (t.entries.map fun e => (e.1, e.2.toJson))) = some t := by
  have hread : (t.entries.map fun e => (e.1, e.2.toJson)).mapM
      (fun e => (Value.ofJson? e.2).map (e.1, ·)) = some t.entries := by
    rw [mapM_eq_some_iff, List.map_map]
    apply List.map_congr_left
    intro e _
    simp [Value.ofJson?_toJson]
  simp only [inputsOfJson?, Option.bind_eq_bind, Option.pure_def]
  rw [hread, Option.bind_some, Keyed.ofList_entries]

theorem ofJson?_toJson (n : Node) : ofJson? n.toJson = some n := by
  obtain ⟨id, type, inputs, next, body⟩ := n
  have hinputs := inputsOfJson?_toJson inputs
  cases next <;> cases body <;>
    simp [toJson, ofJson?, requiredField, optionalField, fieldValues, textOfJson?, linkOfJson?,
      hinputs]

end Node

namespace Graph

theorem add?_eq_some_iff {g h : Graph} {n : Node} :
    g.add? n = some h ↔ h.nodes = g.nodes ++ [n] := by
  unfold add?
  constructor
  · intro hadd
    split at hadd
    · cases hadd
    · cases hadd
      rfl
  · intro hnodes
    have hnew : n.id ∉ g.ids := by
      have := h.nodup_ids
      rw [hnodes, List.map_append, List.nodup_append] at this
      exact fun hmem => this.2.2 n.id hmem n.id (by simp) rfl
    rw [dif_neg hnew, Option.some.injEq]
    exact Graph.ext hnodes.symm

theorem exists_add?_of_nodes {g h : Graph} {n : Node} {rest : List Node}
    (hnodes : h.nodes = g.nodes ++ n :: rest) : ∃ g', g.add? n = some g' := by
  have hnodup := h.nodup_ids
  rw [hnodes, List.append_cons, List.map_append, List.nodup_append] at hnodup
  exact ⟨⟨g.nodes ++ [n], hnodup.1⟩, add?_eq_some_iff.2 rfl⟩

theorem addAll_eq_ok_iff {g h : Graph} {nodes : List Node} :
    g.addAll nodes = .ok h ↔ h.nodes = g.nodes ++ nodes := by
  induction nodes generalizing g with
  | nil =>
    rw [addAll, Except.ok.injEq, List.append_nil, Graph.ext_iff, eq_comm]
  | cons n nodes ih =>
    rw [addAll]
    split
    · next g' hadd =>
      rw [ih, add?_eq_some_iff.1 hadd, List.append_assoc, List.singleton_append]
    · next hadd =>
      constructor
      · intro herror
        cases herror
      · intro hnodes
        obtain ⟨g', hadd'⟩ := exists_add?_of_nodes hnodes
        rw [hadd] at hadd'
        cases hadd'

theorem addKeyed_eq_ok_iff {g h : Graph} {es : List (String × Node)} :
    g.addKeyed es = .ok h ↔
      g.addAll (es.map Prod.snd) = .ok h ∧ ∀ e ∈ es, e.1 = e.2.id := by
  induction es generalizing g with
  | nil => simp [addKeyed, addAll]
  | cons e es ih =>
    obtain ⟨key, n⟩ := e
    rw [addKeyed, List.map_cons, addAll, List.forall_mem_cons]
    by_cases hkey : key = n.id
    · rw [if_neg (not_not_intro hkey)]
      cases g.add? n with
      | none => simp
      | some g' => simpa [hkey] using ih
    · simp [hkey]

/-- A graph comes from a text exactly if the text stands for a document that holds it. -/
theorem ofText_eq_ok_iff {s : String} {g : Graph} :
    ofText s = .ok g ↔ ∃ j doc, Json.Text j s.toList ∧ j.depth ≤ Json.depthLimit ∧
      GraphDocument.ofJson? j = some doc ∧ ofDocument doc = .ok g := by
  unfold ofText
  constructor
  · intro h
    split at h
    · cases h
    · next j rest hfirst =>
      split at h
      · cases h
      · next doc hdoc =>
        split at h
        · next hrest =>
          obtain ⟨htext, hdepth⟩ := Json.text_of_readFirst hfirst (List.isEmpty_iff.1 hrest)
          exact ⟨j, doc, htext, hdepth, hdoc, h⟩
        · cases h
  · rintro ⟨j, doc, htext, hdepth, hdoc, hg⟩
    obtain ⟨rest, hfirst, hrest⟩ := htext.readValue hdepth
    rw [← Json.readFirst] at hfirst
    simp [hfirst, hdoc, hrest, hg]

end Graph

/-! ## Writing documents -/

/-- The document that has nodes under given keys. -/
def tableJson (entries : List (String × Node)) : Json :=
  .object [("blocks", .object (entries.map fun e => (e.1, e.2.toJson)))]

/-- The shapes of a document: a list of nodes, or a table of nodes under their ids. -/
inductive DocumentShape where
  | list
  | keyed

namespace DocumentShape

def toJson : DocumentShape → List Node → Json
  | list, nodes => .array (nodes.map Node.toJson)
  | keyed, nodes => tableJson (nodes.map fun n => (n.id, n))

end DocumentShape

theorem depth_tableJson (entries : List (String × Node)) : (tableJson entries).depth ≤ 4 := by
  rw [tableJson, Json.depth]
  apply Nat.succ_le_succ
  apply Json.depthFields_le
  intro f hf
  rw [List.mem_singleton.1 hf, Json.depth]
  apply Nat.succ_le_succ
  apply Json.depthFields_le
  intro e he
  obtain ⟨⟨k, n⟩, -, rfl⟩ := List.mem_map.1 he
  exact n.depth_toJson

theorem text_tableJson {entries : List (String × Node)}
    (h : ∀ e ∈ entries, ∀ x ∈ e.2.numbers, Json.ReadsBack x) :
    Json.Text (tableJson entries) (tableJson entries).write := by
  apply Json.text_object
  intro f hf
  rw [List.mem_singleton.1 hf]
  apply Json.text_object
  intro e he
  obtain ⟨⟨k, n⟩, hn, rfl⟩ := List.mem_map.1 he
  exact Node.text_toJson (h (k, n) hn)

theorem mapM_tableJson (entries : List (String × Node)) :
    (entries.map fun e => (e.1, e.2.toJson)).mapM (fun e => (Node.ofJson? e.2).map (e.1, ·)) =
      some entries := by
  rw [mapM_eq_some_iff, List.map_map]
  apply List.map_congr_left
  intro e _
  simp [Node.ofJson?_toJson]

theorem Node.requiredField_eq_some_iff {fields : List (String × Json)} {name : String}
    {read : Json → Option α} {a : α} :
    requiredField fields name read = some a ↔
      ∃ j, fieldValues fields name = [j] ∧ read j = some a := by
  unfold requiredField
  split
  · next j hj => simp [hj]
  · next hj =>
    constructor
    · intro h
      cases h
    · rintro ⟨j, hsingle, -⟩
      exact absurd hsingle (hj j)

theorem ofJson?_tableJson (entries : List (String × Node)) :
    GraphDocument.ofJson? (tableJson entries) = some (.keyed (Keyed.ofList entries)) := by
  rw [tableJson, GraphDocument.ofJson?, Node.requiredField_eq_some_iff]
  refine ⟨_, rfl, ?_⟩
  simp only [mapM_tableJson, Option.bind_eq_bind, Option.bind_some, Option.pure_def]

theorem DocumentShape.depth_toJson (shape : DocumentShape) (nodes : List Node) :
    (shape.toJson nodes).depth ≤ 4 := by
  cases shape with
  | list =>
    rw [toJson, Json.depth]
    apply Nat.succ_le_succ
    apply Json.depthItems_le
    intro j hj
    obtain ⟨n, -, rfl⟩ := List.mem_map.1 hj
    exact Nat.le_succ_of_le n.depth_toJson
  | keyed => exact depth_tableJson _

theorem DocumentShape.text_toJson (shape : DocumentShape) {nodes : List Node}
    (h : ∀ n ∈ nodes, ∀ x ∈ n.numbers, Json.ReadsBack x) :
    Json.Text (shape.toJson nodes) (shape.toJson nodes).write := by
  cases shape with
  | list =>
    apply Json.text_array
    intro j hj
    obtain ⟨n, hn, rfl⟩ := List.mem_map.1 hj
    exact Node.text_toJson (h n hn)
  | keyed =>
    apply text_tableJson
    intro e he
    obtain ⟨n, hn, rfl⟩ := List.mem_map.1 he
    exact h n hn

namespace Graph

/-- The nodes under their ids. -/
def keyed (g : Graph) : Keyed Node where
  entries := g.nodes.map fun n => (n.id, n)
  nodup_keys := by
    rw [List.map_map]
    exact g.nodup_ids

theorem entries_keyed (g : Graph) : g.keyed.entries = g.nodes.map fun n => (n.id, n) := rfl

theorem keys_keyed (g : Graph) : g.keyed.keys = g.ids := by
  rw [Keyed.keys, entries_keyed, List.map_map]
  rfl

theorem values_keyed (g : Graph) : g.keyed.values = g.nodes := by
  rw [Keyed.values, entries_keyed, List.map_map]
  exact List.map_id g.nodes

theorem get?_keyed (g : Graph) (id : NodeId) : g.keyed.get? id = g.get? id := by
  apply Option.ext
  intro n
  rw [Keyed.get?_eq_some_iff, get?_eq_some_iff, entries_keyed, List.mem_map]
  constructor
  · rintro ⟨m, hm, heq⟩
    cases heq
    exact ⟨hm, rfl⟩
  · rintro ⟨hn, rfl⟩
    exact ⟨n, hn, rfl⟩

theorem ofDocument_list_eq_ok_iff {nodes : List Node} {g : Graph} :
    ofDocument (.list nodes) = .ok g ↔ g.nodes = nodes :=
  addAll_eq_ok_iff

theorem ofDocument_keyed_eq_ok_iff {t : Keyed Node} {g : Graph} :
    ofDocument (.keyed t) = .ok g ↔ t = g.keyed := by
  rw [ofDocument, addKeyed_eq_ok_iff, addAll_eq_ok_iff]
  constructor
  · rintro ⟨hnodes, hkeys⟩
    apply Keyed.ext
    rw [entries_keyed, hnodes, empty, List.nil_append, List.map_map]
    conv => lhs; rw [← List.map_id t.entries]
    apply List.map_congr_left
    intro e he
    exact Prod.ext (hkeys e he) rfl
  · rintro rfl
    refine ⟨g.values_keyed.symm, fun e he => ?_⟩
    rw [entries_keyed, List.mem_map] at he
    obtain ⟨n, -, rfl⟩ := he
    rfl

theorem exists_ofJson?_toJson (shape : DocumentShape) (g : Graph) :
    ∃ doc, GraphDocument.ofJson? (shape.toJson g.nodes) = some doc ∧ ofDocument doc = .ok g := by
  cases shape with
  | list =>
    have hread : (g.nodes.map Node.toJson).mapM Node.ofJson? = some g.nodes := by
      rw [mapM_eq_some_iff, List.map_map]
      exact List.map_congr_left fun n _ => Node.ofJson?_toJson n
    refine ⟨.list g.nodes, ?_, ofDocument_list_eq_ok_iff.2 rfl⟩
    simp [DocumentShape.toJson, GraphDocument.ofJson?, hread]
  | keyed =>
    exact ⟨_, ofJson?_tableJson _, ofDocument_keyed_eq_ok_iff.2 g.keyed.ofList_entries⟩

/-- Every text for a document, not only the compact one, is read as the nodes it was made of. -/
theorem ofText_of_text {shape : DocumentShape} {g : Graph} {s : String}
    (h : Json.Text (shape.toJson g.nodes) s.toList) : ofText s = .ok g := by
  obtain ⟨doc, hdoc, hg⟩ := exists_ofJson?_toJson shape g
  have hdepth : (shape.toJson g.nodes).depth ≤ Json.depthLimit :=
    Nat.le_trans (shape.depth_toJson g.nodes) (by decide)
  exact ofText_eq_ok_iff.2 ⟨_, doc, h, hdepth, hdoc, hg⟩

/-- Nodes with distinct ids and finite numbers, written in either shape, are read back as they were
and in their order; that the decimal of a finite double reads back is asked of the numbers at hand.
The layout of the text and the escapes in it do not matter. -/
theorem document_roundTrip (nodes : List Node) (distinct : (nodes.map Node.id).Nodup)
    (finite : ∀ n ∈ nodes, ∀ x ∈ n.numbers, x.isFinite = true)
    (readsBack : ∀ n ∈ nodes, ∀ x ∈ n.numbers, x.isFinite = true → Json.ReadsBack x)
    (shape : DocumentShape) :
    ofText (Json.render (shape.toJson nodes)) = .ok ⟨nodes, distinct⟩ ∧
      ∀ s : String, Json.Text (shape.toJson nodes) s.toList → ofText s = .ok ⟨nodes, distinct⟩ := by
  have hany : ∀ s : String, Json.Text (shape.toJson nodes) s.toList →
      ofText s = .ok ⟨nodes, distinct⟩ :=
    fun s hs => ofText_of_text (g := ⟨nodes, distinct⟩) hs
  refine ⟨hany _ ?_, hany⟩
  rw [Json.toList_render]
  exact shape.text_toJson fun n hn x hx => readsBack n hn x hx (finite n hn x hx)

/-- Two nodes whose texts need every kind of escape, with inputs of every kind. -/
def fanfare : List Node :=
  [{ id := "call \"1\"\n", type := "play_note\\",
     inputs := Keyed.ofList [("pitch", .text "C♯4 \t😀"), ("beats", .number 0.25), ("", .bool true)],
     next := some "blocks", body := none },
   { id := "blocks", type := "repeat\x00", inputs := Keyed.ofList [("times", .number (-1e-7))],
     next := none, body := some "call \"1\"\n" }]

theorem document_roundTrip_fanfare : ∃ distinct : (fanfare.map Node.id).Nodup,
    (∀ n ∈ fanfare, ∀ x ∈ n.numbers, x.isFinite = true ∧ Json.ReadsBack x) ∧
      ∀ shape : DocumentShape,
        ofText (Json.render (shape.toJson fanfare)) = .ok ⟨fanfare, distinct⟩ ∧
          ∀ s : String, Json.Text (shape.toJson fanfare) s.toList →
            ofText s = .ok ⟨fanfare, distinct⟩ := by
  have hnumbers : ∀ n ∈ fanfare, ∀ x ∈ n.numbers, x.isFinite = true ∧ Json.ReadsBack x := by
    decide +kernel
  have distinct : (fanfare.map Node.id).Nodup := by decide
  exact ⟨distinct, hnumbers, document_roundTrip fanfare distinct
    (fun n hn x hx => (hnumbers n hn x hx).1) (fun n hn x hx _ => (hnumbers n hn x hx).2)⟩

end Graph

/-! ## What a graph keeps of a document -/

/-- The node entries of a document as they are written, each under its key. In a list a node stands
under its own id. -/
inductive Json.Entries : Json → List (String × Node) → Prop where
  | list {items : List Json} {nodes : List Node} : items.map Node.ofJson? = nodes.map some →
    Entries (.array items) (nodes.map fun n => (n.id, n))
  | keyed {fields blocks : List (String × Json)} {entries : List (String × Node)} :
    Node.fieldValues fields "blocks" = [.object blocks] →
    (blocks.map fun e => (Node.ofJson? e.2).map (e.1, ·)) = entries.map some →
    Entries (.object fields) entries

/-- The node entries that a text writes. -/
def WritesEntries (s : String) (entries : List (String × Node)) : Prop :=
  ∃ j, Json.Text j s.toList ∧ j.Entries entries

theorem Json.Entries.unique {j : Json} {es es' : List (String × Node)} (h : j.Entries es)
    (h' : j.Entries es') : es = es' := by
  cases h with
  | list hnodes =>
    cases h' with
    | list hnodes' =>
      rw [(List.map_inj_right fun _ _ => Option.some.inj).1 (hnodes.symm.trans hnodes')]
  | keyed hblocks hes =>
    cases h' with
    | keyed hblocks' hes' =>
      rw [hblocks] at hblocks'
      cases hblocks'
      exact (List.map_inj_right fun _ _ => Option.some.inj).1 (hes.symm.trans hes')

namespace Graph

/-- The graph of a document is the table of its entries. -/
theorem exists_entries {j : Json} {doc : GraphDocument} {g : Graph}
    (hdoc : GraphDocument.ofJson? j = some doc) (hg : ofDocument doc = .ok g) :
    ∃ entries, j.Entries entries ∧ Keyed.ofList entries = g.keyed ∧
      (∀ items, j = .array items → (entries.map Prod.fst).Nodup) := by
  cases j with
  | array items =>
    -- a list that repeats an id is refused, so its entries are those of a table already
    obtain ⟨nodes, hnodes, rfl⟩ := Option.map_eq_some_iff.1 hdoc
    cases ofDocument_list_eq_ok_iff.1 hg
    refine ⟨g.keyed.entries, .list (mapM_eq_some_iff.1 hnodes), g.keyed.ofList_entries, ?_⟩
    exact fun _ _ => g.keyed.nodup_keys
  | object fields =>
    obtain ⟨field, hfield, hread⟩ := Node.requiredField_eq_some_iff.1 hdoc
    cases field with
    | object blocks =>
      simp only [Option.bind_eq_bind, Option.bind_eq_some_iff, Option.pure_def,
        Option.some.injEq] at hread
      obtain ⟨entries, hentries, rfl⟩ := hread
      refine ⟨entries, .keyed hfield (mapM_eq_some_iff.1 hentries),
        ofDocument_keyed_eq_ok_iff.1 hg, ?_⟩
      intro items heq
      cases heq
    | _ => cases hread
  | _ => cases hdoc

/-- Of the entries that an accepted document writes, the graph has each key at its first place and
with its last node. So it has all of them, one for one and in order, exactly if no key is written
twice; a document that is a list never writes one twice. -/
theorem keeps_last_entries {s : String} {g : Graph} (h : ofText s = .ok g) :
    ∃ entries, (∀ es, WritesEntries s es ↔ es = entries) ∧
      g.ids = (entries.map Prod.fst).eraseDups ∧
      (∀ id, g.get? id = (entries.reverse.find? (·.1 == id)).map Prod.snd) ∧
      (g.nodes = entries.map Prod.snd ↔ (entries.map Prod.fst).Nodup) ∧
      (∀ items, Json.Text (.array items) s.toList → (entries.map Prod.fst).Nodup) := by
  obtain ⟨j, doc, htext, -, hdoc, hg⟩ := ofText_eq_ok_iff.1 h
  obtain ⟨entries, hentries, htable, hlist⟩ := exists_entries hdoc hg
  refine ⟨entries, fun es => ⟨?_, ?_⟩, ?_, fun id => ?_, ⟨fun hall => ?_, fun hnodup => ?_⟩, ?_⟩
  · rintro ⟨j', htext', hes⟩
    cases htext.unique htext'
    exact hes.unique hentries
  · rintro rfl
    exact ⟨j, htext, hentries⟩
  · rw [← keys_keyed, ← htable, Keyed.keys_ofList]
  · rw [← get?_keyed, ← htable, Keyed.get?_ofList]
  · apply Keyed.nodup_of_length_keys_ofList
    rw [htable, keys_keyed, ids, hall, List.length_map, List.length_map]
  · rw [← values_keyed, ← htable, Keyed.values, Keyed.entries_ofList hnodup]
  · intro items hitems
    exact hlist items (htext.unique hitems)

theorem writesEntries_tableJson {entries : List (String × Node)}
    (h : ∀ e ∈ entries, ∀ x ∈ e.2.numbers, Json.ReadsBack x) :
    WritesEntries (tableJson entries).render entries := by
  refine ⟨tableJson entries, ?_, .keyed rfl (mapM_eq_some_iff.1 (mapM_tableJson entries))⟩
  rw [Json.toList_render]
  exact text_tableJson h

theorem ofText_tableJson {entries : List (String × Node)} {g : Graph}
    (h : ∀ e ∈ entries, ∀ x ∈ e.2.numbers, Json.ReadsBack x)
    (hg : Keyed.ofList entries = g.keyed) : ofText (tableJson entries).render = .ok g := by
  rw [ofText_eq_ok_iff]
  refine ⟨tableJson entries, _, ?_, Nat.le_trans (depth_tableJson entries) (by decide),
    ofJson?_tableJson entries, ofDocument_keyed_eq_ok_iff.2 hg⟩
  rw [Json.toList_render]
  exact text_tableJson h

/-- Two nodes under one key. -/
def twice : List (String × Node) :=
  [("a", ⟨"a", "start", ∅, none, none⟩), ("a", ⟨"a", "box", ∅, none, none⟩)]

/-- The second of them. -/
def single : Graph := ⟨[⟨"a", "box", ∅, none, none⟩], by decide⟩

theorem ofText_twice : ofText (tableJson twice).render = .ok single :=
  ofText_tableJson (by decide) (by decide)

theorem keeps_last_entries_twice : ofText (tableJson twice).render = .ok single ∧
    ∃ entries, (∀ es, WritesEntries (tableJson twice).render es ↔ es = entries) ∧
      single.ids = (entries.map Prod.fst).eraseDups ∧
      (∀ id, single.get? id = (entries.reverse.find? (·.1 == id)).map Prod.snd) ∧
      (single.nodes = entries.map Prod.snd ↔ (entries.map Prod.fst).Nodup) ∧
      (∀ items, Json.Text (.array items) (tableJson twice).render.toList →
        (entries.map Prod.fst).Nodup) :=
  ⟨ofText_twice, keeps_last_entries ofText_twice⟩

/-- A document that writes two nodes of one id is accepted, and the first of them is lost. -/
theorem entry_dropped : ∃ s g es, ofText s = .ok g ∧ WritesEntries s es ∧
    ¬ (es.map fun e => e.2.id).Nodup ∧ g.nodes.length < es.length :=
  ⟨(tableJson twice).render, single, twice, ofText_twice, writesEntries_tableJson (by decide),
    by decide, by decide⟩

end Graph

end TuneBlocks
