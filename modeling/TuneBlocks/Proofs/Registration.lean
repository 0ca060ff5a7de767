import Mathlib.Data.List.Dedup
import Mathlib.Data.List.Induction
import TuneBlocks.Proofs.Lifecycle

/-!
# What registrations come to

Plugins, block types and handlers are registered in any order, and under the same names again. What
a registry knows in the end is what was registered last (`Registry.registerAll_settles`). Block
types keep the places of their names, while a plugin that comes again moves behind the others. A
plugin counts as its blocks one after the other, so block types are the outcome of single entries
(`Registration.history`), each of which writes to one name.
-/

namespace TuneBlocks

variable {σ : Type}

/-- What can be registered. -/
inductive Registration (σ : Type) where
  | plugin (p : Plugin σ)
  | block (b : BlockDef σ)
  | handler (name : String) (handler : Handler σ)

/-- What is registered under one name: a block type, or a handler alone. -/
inductive BlockEntry (σ : Type) where
  | block (b : BlockDef σ)
  | handler (name : String) (handler : Handler σ)

/-! ## Entries -/

namespace BlockEntry

def name : BlockEntry σ → String
  | block b => b.type
  | handler name _ => name

/-- What an entry makes of what is known under its name. -/
def amend : BlockEntry σ → Option (BlockDef σ) → BlockDef σ
  | block b, _ => b
  | handler _ h, some b => { b with handler := some h }
  | handler name h, none => { type := name, handler := some h }

def write (t : Keyed (BlockDef σ)) (e : BlockEntry σ) : Keyed (BlockDef σ) :=
  t.upsert e.name e.amend

/-- The block types that some entries leave. -/
def writeAll (es : List (BlockEntry σ)) : Keyed (BlockDef σ) := es.foldl write ∅

/-- No block type is registered under the name. -/
def Undefined (name : String) (es : List (BlockEntry σ)) : Prop :=
  ∀ b, .block b ∈ es → b.type ≠ name

/-- The handler that is registered alone under a name. -/
def handlerOf? (name : String) : BlockEntry σ → Option (Handler σ)
  | block _ => none
  | handler name' h => if name' = name then some h else none

/-- The last handler that is registered alone under a name. -/
def lastHandler? (name : String) (es : List (BlockEntry σ)) : Option (Handler σ) :=
  (es.filterMap (handlerOf? name)).getLast?

theorem lastHandler?_concat (name : String) (es : List (BlockEntry σ)) (e : BlockEntry σ) :
    lastHandler? name (es ++ [e]) = (e.handlerOf? name).or (lastHandler? name es) := by
  rw [lastHandler?, List.filterMap_append, List.getLast?_append]
  cases h : e.handlerOf? name <;> simp [lastHandler?, h]

theorem writeAll_concat (es : List (BlockEntry σ)) (e : BlockEntry σ) :
    writeAll (es ++ [e]) = write (writeAll es) e :=
  List.foldl_append

/-- Names come in the order of their first entries. -/
theorem keys_writeAll (es : List (BlockEntry σ)) :
    (writeAll es).keys = (es.map name).eraseDups := by
  induction es using List.reverseRec with
  | nil => rfl
  | append_singleton es e ih =>
    rw [writeAll_concat, write, Keyed.keys_upsert, ih, List.map_append, List.map_singleton,
      Keyed.eraseDups_concat]

theorem type_amend (e : BlockEntry σ) {old : Option (BlockDef σ)}
    (h : ∀ b, old = some b → b.type = e.name) : (e.amend old).type = e.name := by
  cases e with
  | block b => rfl
  | handler name f =>
    cases old with
    | none => rfl
    | some b => exact h b rfl

/-- A block type is found under its own name. -/
theorem type_of_get? {es : List (BlockEntry σ)} {name : String} {b : BlockDef σ}
    (h : (writeAll es).get? name = some b) : b.type = name := by
  induction es using List.reverseRec generalizing name b with
  | nil => cases h
  | append_singleton es e ih =>
    rw [writeAll_concat, write, Keyed.get?_upsert] at h
    by_cases hname : name = e.name
    · rw [if_pos hname, Option.some.injEq] at h
      rw [← h, hname]
      exact e.type_amend fun _ hold => ih hold
    · rw [if_neg hname] at h
      exact ih h

/-- Entries that define no block type of a name leave all but its handler alone. -/
theorem get?_foldl_write {name : String} {es : List (BlockEntry σ)} (h : Undefined name es)
    (t : Keyed (BlockDef σ)) :
    (es.foldl write t).get? name =
      match lastHandler? name es with
      | none => t.get? name
      | some f => some ((handler name f).amend (t.get? name)) := by
  induction es using List.reverseRec with
  | nil => rfl
  | append_singleton es e ih =>
    have hes := ih fun b hb => h b (List.mem_append_left _ hb)
    rw [List.foldl_append, List.foldl_cons, List.foldl_nil, write, Keyed.get?_upsert,
      lastHandler?_concat]
    cases e with
    | block b =>
      have hne : name ≠ (block b).name :=
        (h b (List.mem_append_right _ (List.mem_singleton_self _))).symm
      rw [if_neg hne, hes]
      rfl
    | handler name' f =>
      by_cases hname : name' = name
      · subst hname
        simp only [BlockEntry.name, ↓reduceIte, handlerOf?, Option.some_or, hes]
        -- the handler before this one has made no other difference
        cases lastHandler? name' es with
        | none => rfl
        | some _ => cases t.get? name' <;> rfl
      · have hne : name ≠ (handler name' f).name := Ne.symm hname
        rw [if_neg hne, hes, handlerOf?, if_neg hname, Option.none_or]

/-- A block type that is not defined again gets the last handler that comes after it. -/
theorem get?_writeAll_of_last {front back : List (BlockEntry σ)} {b : BlockDef σ}
    (h : Undefined b.type back) :
    (writeAll (front ++ block b :: back)).get? b.type =
      some { b with handler := (lastHandler? b.type back).or b.handler } := by
  have hb : (write (writeAll front) (block b)).get? b.type = some b := by
    rw [write, Keyed.get?_upsert]
    exact if_pos rfl
  rw [writeAll, List.foldl_append, List.foldl_cons]
  refine (get?_foldl_write h _).trans ?_
  rw [writeAll] at hb
  rw [hb]
  cases lastHandler? b.type back <;> rfl

/-- A name without a block type has the last handler, and nothing else. -/
theorem get?_writeAll_of_undefined {es : List (BlockEntry σ)} {name : String}
    (h : Undefined name es) :
    (writeAll es).get? name =
      (lastHandler? name es).map fun f => { type := name, handler := some f } := by
  rw [writeAll, get?_foldl_write h]
  cases lastHandler? name es <;> rfl

end BlockEntry

/-! ## Plugins -/

namespace PluginHooks

/-- Puts a plugin behind the others, of which one of its name is dropped. -/
def put (ps : List (PluginHooks σ)) (p : PluginHooks σ) : List (PluginHooks σ) :=
  ps.filter (·.name != p.name) ++ [p]

def putAll (ps : List (PluginHooks σ)) : List (PluginHooks σ) := ps.foldl put []

theorem putAll_concat (ps : List (PluginHooks σ)) (p : PluginHooks σ) :
    putAll (ps ++ [p]) = put (putAll ps) p :=
  List.foldl_append

theorem dedup_concat (names : List String) (name : String) :
    (names ++ [name]).dedup = names.dedup.filter (· != name) ++ [name] := by
  induction names with
  | nil => rfl
  | cons first names ih =>
    by_cases hin : first ∈ names
    · rw [List.cons_append, List.dedup_cons_of_mem (List.mem_append_left _ hin), ih,
        List.dedup_cons_of_mem hin]
    · by_cases hname : first = name
      · subst hname
        rw [List.cons_append, List.dedup_cons_of_mem (by simp), ih, List.dedup_cons_of_notMem hin]
        simp
      · rw [List.cons_append, List.dedup_cons_of_notMem (by simp [hin, hname]), ih,
          List.dedup_cons_of_notMem hin]
        simp [hname]

/-- Names come in the order of their last registrations. -/
theorem names_putAll (ps : List (PluginHooks σ)) : (putAll ps).map name = (ps.map name).dedup := by
  induction ps using List.reverseRec with
  | nil => rfl
  | append_singleton ps p ih =>
    rw [putAll_concat, put, List.map_append, List.map_append, List.map_singleton, dedup_concat,
      ← ih, List.filter_map]
    rfl

/-- The plugin of a name is the last that was registered under it. -/
theorem last_of_mem_putAll {ps : List (PluginHooks σ)} {p : PluginHooks σ} (h : p ∈ putAll ps) :
    ∃ front back, ps = front ++ p :: back ∧ ∀ q ∈ back, q.name ≠ p.name := by
  induction ps using List.reverseRec with
  | nil => cases h
  | append_singleton ps last ih =>
    rw [putAll_concat, put, List.mem_append, List.mem_filter, List.mem_singleton] at h
    obtain ⟨hp, hne⟩ | rfl := h
    · obtain ⟨front, back, rfl, hback⟩ := ih hp
      refine ⟨front, back ++ [last], by simp, fun q hq => ?_⟩
      obtain hq | hq := List.mem_append.1 hq
      · exact hback q hq
      · rw [List.mem_singleton.1 hq]
        exact Ne.symm (bne_iff_ne.1 hne)
    · exact ⟨ps, [], rfl, fun q hq => nomatch hq⟩

end PluginHooks

/-! ## Registrations -/

namespace Registration

/-- What a registration enters under names, in order. -/
def entries : Registration σ → List (BlockEntry σ)
  | plugin p => p.blocks.map .block
  | block b => [.block b]
  | handler name h => [.handler name h]

def history (rs : List (Registration σ)) : List (BlockEntry σ) := rs.flatMap entries

def plugin? : Registration σ → Option (PluginHooks σ)
  | plugin p => some p.toPluginHooks
  | _ => none

/-- The plugins that are registered, in order. -/
def plugins (rs : List (Registration σ)) : List (PluginHooks σ) := rs.filterMap plugin?

end Registration

namespace Registry

def register (r : Registry σ) : Registration σ → Registry σ
  | .plugin p => r.addPlugin p
  | .block b => r.addBlock b
  | .handler name h => r.addHandler name h

/-- A registry after some registrations. -/
def registerAll (rs : List (Registration σ)) : Registry σ := rs.foldl register empty

theorem registerAll_concat (rs : List (Registration σ)) (x : Registration σ) :
    registerAll (rs ++ [x]) = (registerAll rs).register x :=
  List.foldl_append

theorem foldl_addBlock (bs : List (BlockDef σ)) (r : Registry σ) :
    bs.foldl addBlock r =
      { r with blocks := (bs.map BlockEntry.block).foldl BlockEntry.write r.blocks } := by
  induction bs generalizing r with
  | nil => rfl
  | cons b bs ih => exact ih (r.addBlock b)

theorem blocks_register (r : Registry σ) (x : Registration σ) :
    (r.register x).blocks = x.entries.foldl BlockEntry.write r.blocks := by
  cases x with
  | plugin p =>
    simp only [register, addPlugin, foldl_addBlock]
    rfl
  | block b => rfl
  | handler name h =>
    refine congrArg (r.blocks.upsert name) (funext fun b => ?_)
    cases b <;> rfl

theorem plugins_register (r : Registry σ) (x : Registration σ) :
    (r.register x).plugins = (Registration.plugins [x]).foldl PluginHooks.put r.plugins := by
  cases x with
  | plugin p =>
    simp only [register, addPlugin, foldl_addBlock]
    rfl
  | block b => rfl
  | handler name h => rfl

theorem blocks_registerAll (rs : List (Registration σ)) :
    (registerAll rs).blocks = BlockEntry.writeAll (Registration.history rs) := by
  induction rs using List.reverseRec with
  | nil => rfl
  | append_singleton rs x ih =>
    have hhistory : Registration.history (rs ++ [x]) = Registration.history rs ++ x.entries := by
      simp only [Registration.history, List.flatMap_append, List.flatMap_singleton]
    rw [registerAll_concat, blocks_register, ih, hhistory]
    exact List.foldl_append.symm

theorem plugins_registerAll (rs : List (Registration σ)) :
    (registerAll rs).plugins = PluginHooks.putAll (Registration.plugins rs) := by
  induction rs using List.reverseRec with
  | nil => rfl
  | append_singleton rs x ih =>
    have hplugins : Registration.plugins (rs ++ [x]) =
        Registration.plugins rs ++ Registration.plugins [x] := List.filterMap_append
    rw [registerAll_concat, plugins_register, ih, hplugins]
    exact List.foldl_append.symm

/-- Hooks of block types that stand under their own names come in the order of the names. -/
theorem namedHooks_of_types {r : Registry σ}
    (h : ∀ name b, r.block? name = some b → b.type = name) (phase : Phase) :
    r.namedHooks phase =
      r.plugins.filterMap (fun p => (p.hook? phase).map (p.name, ·)) ++
      r.blockTypes.filterMap (fun type =>
        ((r.block? type).bind (·.hook? phase)).map (type, ·)) := by
  rw [namedHooks_eq_append, blockTypes, Keyed.keys, Keyed.values, List.filterMap_map,
    List.filterMap_map]
  refine congrArg _ (List.filterMap_congr fun e he => ?_)
  have hget : r.block? e.1 = some e.2 := Keyed.get?_eq_some_iff.2 he
  simp only [Function.comp_apply, hget, Option.bind_some, h _ _ hget]

/-- What a registry knows after some registrations, and in which order its hooks are called. -/
structure Settles (r : Registry σ) (rs : List (Registration σ)) : Prop where
  /-- Each name has one entry, in the place of its first registration. -/
  blockTypes : r.blockTypes = ((Registration.history rs).map BlockEntry.name).eraseDups ∧
    r.blockTypes.Nodup
  /-- The last definition of a name counts, with the last handler after it. -/
  defined : ∀ front b back, Registration.history rs = front ++ .block b :: back →
    BlockEntry.Undefined b.type back →
    r.block? b.type = some { b with handler := (BlockEntry.lastHandler? b.type back).or b.handler }
  /-- A name that is not defined has only its last handler. -/
  undefined : ∀ name, BlockEntry.Undefined name (Registration.history rs) →
    r.block? name =
      (BlockEntry.lastHandler? name (Registration.history rs)).map fun f =>
        { type := name, handler := some f }
  /-- Each plugin has one place, that of its last registration. -/
  pluginNames : r.pluginNames = ((Registration.plugins rs).map PluginHooks.name).dedup ∧
    r.pluginNames.Nodup
  plugins : ∀ p ∈ r.plugins, ∃ front back, Registration.plugins rs = front ++ p :: back ∧
    ∀ q ∈ back, q.name ≠ p.name
  /-- The hooks of a phase are those of the plugins and then of the block types, in these orders. -/
  hooks : ∀ phase, ((r.hooks phase).map fun (h, hook) => (h.name, hook)) =
    r.plugins.filterMap (fun p => (p.hook? phase).map (p.name, ·)) ++
    r.blockTypes.filterMap (fun type => ((r.block? type).bind (·.hook? phase)).map (type, ·))
  /-- Before a run hooks are called in this order, up to a failure. -/
  setUp : ∀ w, ∃ calls, UpToFailure (r.holders .setUp) calls ∧
    (r.setUpAll w).1 = verdict .setUp calls ∧
    r.journaled.setUpAll ⟨w, []⟩ =
      ((r.setUpAll w).1, ⟨(r.setUpAll w).2, hookEntries .setUp calls⟩)
  /-- After a run all hooks are called in this order. -/
  cleanUp : ∀ w, ∃ calls, calls.map HookCall.holder = r.holders .cleanUp ∧
    (r.cleanUpAll w).1 = verdict .cleanUp calls ∧
    r.journaled.cleanUpAll ⟨w, []⟩ =
      ((r.cleanUpAll w).1, ⟨(r.cleanUpAll w).2, hookEntries .cleanUp calls⟩)

/-- **What was registered last counts.** -/
theorem registerAll_settles (rs : List (Registration σ)) : (registerAll rs).Settles rs := by
  have hblocks := blocks_registerAll rs
  have hplugins := plugins_registerAll rs
  have htypes (name : String) (b : BlockDef σ) (h : (registerAll rs).block? name = some b) :
      b.type = name := by
    rw [block?, hblocks] at h
    exact BlockEntry.type_of_get? h
  refine ⟨⟨?_, Keyed.keys_nodup _⟩, ?_, ?_, ?_, ?_, ?_, ?_, ?_⟩
  · rw [blockTypes, hblocks, BlockEntry.keys_writeAll]
  · intro front b back hhistory hback
    rw [block?, hblocks, hhistory]
    exact BlockEntry.get?_writeAll_of_last hback
  · intro name hname
    rw [block?, hblocks]
    exact BlockEntry.get?_writeAll_of_undefined hname
  · have hnames : (registerAll rs).pluginNames = _ :=
      hplugins ▸ PluginHooks.names_putAll (Registration.plugins rs)
    exact ⟨hnames, hnames ▸ List.nodup_dedup _⟩
  · intro p hp
    rw [hplugins] at hp
    exact PluginHooks.last_of_mem_putAll hp
  · intro phase
    rw [← namedHooks_eq]
    exact namedHooks_of_types htypes phase
  · exact fun w => (registerAll rs).setUpAll_journaled w []
  · exact fun w => (registerAll rs).cleanUpAll_journaled w []

example :
    let p (name : String) (types : List String) : Registration Unit :=
      .plugin { name := name, blocks := types.map fun type => { type := type } }
    let r := registerAll [p "a" ["x", "y"], p "b" ["y"], p "a" ["z", "x"]]
    r.pluginNames = ["b", "a"] ∧ r.blockTypes = ["x", "y", "z"] := by
  decide

end Registry

end TuneBlocks
