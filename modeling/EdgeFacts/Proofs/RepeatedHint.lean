/-
# Of hints for one name the last counts

Hints that are read are put into a table by name before any is given, and of a name
that comes again the later fact counts (`Analysis.toldOf_ofList`). So a run starts from
the last fact that is told of each node (`Analysis.hintAll_parse`), while hints given
one by one are met with each other. Both come to the same exactly if what is told
last of a node says all that is told of it, as it does where names differ. Otherwise
something is lost, or a contradiction goes unnoticed (`Analysis.repeated_hint_lost`).

Key definitions: `Analysis.toldOf`, `Analysis.lastTold`.
Key theorems: `Analysis.toldOf_ofList`, `Analysis.hintAll_ofList`, `Analysis.hintAll_parse`.
-/
import EdgeFacts.Proofs.Hint
import EdgeFacts.Proofs.Report

namespace EdgeFacts

/-! ### Names in a table -/

namespace Table

variable {α : Type}

theorem insert_of_not_mem {name : String} {value : α} : ∀ {t : Table α}, name ∉ t.map Prod.fst →
    t.insert name value = t ++ [(name, value)]
  | [], _ => rfl
  | (key, old) :: t, h => by
    rw [List.map_cons, List.mem_cons, not_or] at h
    rw [insert, if_neg (Ne.symm h.1), insert_of_not_mem h.2, List.cons_append]

theorem map_fst_insert_of_mem {name : String} {value : α} : ∀ {t : Table α}, name ∈ t.map Prod.fst →
    (t.insert name value).map Prod.fst = t.map Prod.fst
  | (key, old) :: t, h => by
    rw [insert]
    split
    · rfl
    · rename_i hne
      have hmem : name ∈ t.map Prod.fst := (List.mem_cons.1 h).resolve_left (Ne.symm hne)
      rw [List.map_cons, map_fst_insert_of_mem hmem, List.map_cons]

theorem nodup_insert {t : Table α} {name : String} {value : α} (h : (t.map Prod.fst).Nodup) :
    ((t.insert name value).map Prod.fst).Nodup := by
  by_cases hmem : name ∈ t.map Prod.fst
  · rwa [map_fst_insert_of_mem hmem]
  · rw [insert_of_not_mem hmem, List.map_append]
    exact h.append (List.nodup_singleton _) (by simpa using hmem)

theorem ofList_concat (entries : List (String × α)) (e : String × α) :
    ofList (entries ++ [e]) = (ofList entries).insert e.1 e.2 := by
  simp [ofList]

theorem nodup_ofList (entries : List (String × α)) : ((ofList entries).map Prod.fst).Nodup := by
  induction entries using List.reverseRecOn with
  | nil => exact List.nodup_nil
  | append_singleton entries e ih =>
    rw [ofList_concat]
    exact nodup_insert ih

theorem ofList_of_nodup {entries : List (String × α)} (h : (entries.map Prod.fst).Nodup) :
    ofList entries = entries := by
  induction entries using List.reverseRecOn with
  | nil => rfl
  | append_singleton entries e ih =>
    rw [List.map_append, List.nodup_append] at h
    obtain ⟨hn, -, hne⟩ := h
    rw [ofList_concat, ih hn, insert_of_not_mem fun hmem => hne _ hmem _ (.head _) rfl]

end Table

theorem Edge.eq_of_ends {e d : Edge} (hends : e.ends = d.ends) (hfact : e.fact = d.fact) : e = d := by
  obtain ⟨hid, hsource, hport, htarget⟩ := Edge.ends_eq_iff.1 hends
  cases e
  cases d
  simp_all

namespace TensorFact

theorem eq_of_refines {f g : TensorFact} (hfg : f.Refines g) (hgf : g.Refines f) (hf : f.value = none) : f = g := by
  have hsame := same_iff_refines.2 ⟨hfg, hgf⟩
  obtain ⟨d, s, v⟩ := f
  obtain ⟨d', s', v'⟩ := g
  cases hf
  cases v' <;> simp_all [same, sameExact]

end TensorFact

namespace Analysis

/-! ### What is told of a node -/

/-- The place of the first node with a name. -/
def nodeNamed (a : Analysis) (name : String) : Option Nat := a.nodes.findIdx? (·.name = name)

/-- The facts that are told of a node, in order. -/
def toldOf (a : Analysis) (told : List (String × TensorFact)) (i : Nat) : List TensorFact :=
  told.filterMap fun h => if a.nodeNamed h.1 = some i then some h.2 else none

/-- The analysis in which each node about which something is told knows what is told of it
last. -/
def lastTold (a : Analysis) (told : List (String × TensorFact)) : Analysis :=
  { a with edges := a.edges.map fun e =>
      { e with fact := (e.source.bind fun i => (a.toldOf told i).getLast?).getD e.fact } }

/-- Whether what is known on each edge out of a node says all that is told of it. -/
def KnowsAll (a : Analysis) (told : List (String × TensorFact)) : Prop :=
  ∀ i, ∀ f ∈ a.toldOf told i, ∀ e ∈ a.edgesFrom i, e.fact.Refines f

variable {a b s : Analysis} {told : List (String × TensorFact)}

theorem SameGraph.nodeNamed_eq (h : SameGraph b a) (name : String) : b.nodeNamed name = a.nodeNamed name := by
  rw [nodeNamed, nodeNamed, h.nodes]

theorem SameGraph.toldOf_eq (h : SameGraph b a) (told : List (String × TensorFact)) (i : Nat) :
    b.toldOf told i = a.toldOf told i := by
  simp only [toldOf, h.nodeNamed_eq]

theorem toldOf_cons {name : String} {f : TensorFact} {i : Nat} : a.toldOf ((name, f) :: told) i =
    if a.nodeNamed name = some i then f :: a.toldOf told i else a.toldOf told i := by
  unfold toldOf
  rw [List.filterMap_cons]
  split <;> simp_all

theorem toldOf_append (a : Analysis) (told later : List (String × TensorFact)) (i : Nat) :
    a.toldOf (told ++ later) i = a.toldOf told i ++ a.toldOf later i := List.filterMap_append

theorem mem_toldOf {i : Nat} {f : TensorFact} :
    f ∈ a.toldOf told i ↔ ∃ h ∈ told, a.nodeNamed h.1 = some i ∧ h.2 = f := by
  simp only [toldOf, List.mem_filterMap, Option.ite_none_right_eq_some, Option.some.injEq]

theorem exists_node_of_nodeNamed {name : String} {i : Nat} (h : a.nodeNamed name = some i) :
    ∃ n, a.nodes[i]? = some n ∧ n.name = name := by
  obtain ⟨hi, hname, -⟩ := List.findIdx?_eq_some_iff_getElem.1 h
  exact ⟨_, List.getElem?_eq_getElem hi, of_decide_eq_true hname⟩

/-- Since ids are places, a hint by name goes to the place of the name. -/
theorem hintByName_eq (hw : WellFormed a) {name : String} {i : Nat} (h : a.nodeNamed name = some i)
    (f : TensorFact) : a.hintByName name f = a.hint i f := by
  obtain ⟨hi, hname, hbefore⟩ := List.findIdx?_eq_some_iff_getElem.1 h
  have hfind : a.nodes.find? (·.name = name) = some a.nodes[i] :=
    List.find?_eq_some_iff_getElem.2 ⟨hname, i, hi, rfl, fun j hj => by simpa using hbefore j hj⟩
  rw [hintByName, hfind]
  simp only [hw.ids i _ (List.getElem?_eq_getElem hi)]

theorem nodeNamed_inj {m n : String} {i : Nat} (hm : a.nodeNamed m = some i) (hn : a.nodeNamed n = some i) : m = n := by
  obtain ⟨x, hx, rfl⟩ := exists_node_of_nodeNamed hm
  obtain ⟨y, hy, rfl⟩ := exists_node_of_nodeNamed hn
  cases hx.symm.trans hy
  rfl

theorem exists_nodeNamed {name : String} (h : name ∈ a.nodes.map Node.name) : ∃ i, a.nodeNamed name = some i := by
  obtain ⟨n, hn, rfl⟩ := List.mem_map.1 h
  refine Option.isSome_iff_exists.1 ?_
  rw [nodeNamed, List.findIdx?_isSome, List.any_eq_true]
  exact ⟨n, hn, decide_eq_true rfl⟩

theorem toldOf_eq_nil {i : Nat} {name : String} (hi : a.nodeNamed name = some i) (h : name ∉ told.map Prod.fst) :
    a.toldOf told i = [] := by
  refine List.eq_nil_iff_forall_not_mem.2 fun f hf => ?_
  obtain ⟨e, he, hplace, -⟩ := mem_toldOf.1 hf
  exact h (List.mem_map.2 ⟨e, he, nodeNamed_inj hplace hi⟩)

theorem toldOf_insert {name : String} {f : TensorFact} {i : Nat} : ∀ {t : Table TensorFact}, (t.map Prod.fst).Nodup →
    a.toldOf (t.insert name f) i = if a.nodeNamed name = some i then [f] else a.toldOf t i
  | [], _ => toldOf_cons
  | (key, old) :: t, h => by
    obtain ⟨hkey, ht⟩ := List.nodup_cons.1 h
    rw [Table.insert]
    split
    · rename_i heq
      subst heq
      rw [toldOf_cons, toldOf_cons]
      split
      · rename_i hi
        rw [toldOf_eq_nil hi hkey]
      · rfl
    · rename_i hne
      rw [toldOf_cons, toldOf_cons, toldOf_insert ht]
      split
      · rename_i hi
        have hname : a.nodeNamed name ≠ some i := fun hn => hne (nodeNamed_inj hi hn)
        rw [if_neg hname, if_neg hname]
      · rfl

/-- **A table tells of each node what is told of it last.** -/
theorem toldOf_ofList (a : Analysis) (told : List (String × TensorFact)) (i : Nat) :
    a.toldOf (Table.ofList told) i = (a.toldOf told i).getLast?.toList := by
  induction told using List.reverseRecOn with
  | nil => rfl
  | append_singleton told h ih =>
    rw [Table.ofList_concat, toldOf_insert (Table.nodup_ofList told), toldOf_append, toldOf_cons]
    split
    · simp [toldOf]
    · rw [ih]
      simp [toldOf]

theorem knowsAll_cons {name : String} {f : TensorFact} : s.KnowsAll ((name, f) :: told) ↔
    (∀ i, s.nodeNamed name = some i → ∀ e ∈ s.edgesFrom i, e.fact.Refines f) ∧ s.KnowsAll told := by
  constructor
  · intro h
    refine ⟨fun i hi => h i f ?_, fun i g hg => h i g ?_⟩
    · rw [toldOf_cons, if_pos hi]
      exact .head _
    · rw [toldOf_cons]
      split
      · exact .tail _ hg
      · exact hg
  · rintro ⟨hf, htold⟩ i g hg
    rw [toldOf_cons] at hg
    split at hg
    · rename_i hi
      rcases List.mem_cons.1 hg with rfl | hg
      · exact hf i hi
      · exact htold i g hg
    · exact htold i g hg

/-! ### Hints by name, one after the other -/

theorem nodeNamed_of_hintByName {name : String} {f : TensorFact} (h : a.hintByName name f = .ok b) :
    ∃ i, a.nodeNamed name = some i := by
  obtain ⟨n, hn, -⟩ := hintByName_eq_ok_iff.1 h
  exact exists_nodeNamed (List.mem_map.2 ⟨n, List.mem_of_find?_eq_some hn, by simpa using List.find?_some hn⟩)

/-- Hints refine what is known, and after them this says what they tell. -/
theorem hintAll_lower : ∀ {told : List (String × TensorFact)} {a b : Analysis}, WellFormed a →
    a.hintAll told = .ok b → WellFormed b ∧ b = { a with edges := b.edges } ∧ Refines b a ∧ b.KnowsAll told
  | [], a, b, hw, h => by
    cases h
    exact ⟨hw, rfl, .refl a, fun i f hf => absurd hf List.not_mem_nil⟩
  | (name, f) :: told, a, c, hw, h => by
    obtain ⟨b, hb, hc⟩ := hintAll_cons.1 h
    obtain ⟨i, hi⟩ := nodeNamed_of_hintByName hb
    rw [hintByName_eq hw hi] at hb
    obtain ⟨hframe, -, -⟩ := hint_frame hw.toLinked hb
    obtain ⟨hba, j, hj, htold⟩ := hint_lower hw.toLinked hb
    obtain rfl : i = j := Int.natCast_inj.1 (nodeIndex_eq_ok_iff.1 hj).1
    have hwb := hint_wellFormed hw hb
    obtain ⟨hwc, hframe', hcb, hall⟩ := hintAll_lower hwb hc
    refine ⟨hwc, ?_, hcb.trans hba, knowsAll_cons.2 ⟨fun k hk => ?_, hall⟩⟩
    · rw [hframe', hframe]
    · rw [(hcb.trans hba).nodeNamed_eq, hi] at hk
      cases hk
      exact hcb.told hwb.toLinked htold

theorem hintAll_greatest : ∀ {told : List (String × TensorFact)} {a : Analysis}, WellFormed a →
    (∀ h ∈ told, h.1 ∈ a.nodes.map Node.name) → Refines s a → s.KnowsAll told →
    ∃ b, a.hintAll told = .ok b ∧ Refines s b
  | [], a, _, _, hsa, _ => ⟨a, rfl, hsa⟩
  | (name, f) :: told, a, hw, hnames, hsa, hs => by
    obtain ⟨hf, htold⟩ := knowsAll_cons.1 hs
    obtain ⟨i, hi⟩ := exists_nodeNamed (hnames _ (.head _))
    have hlt : i < a.nodes.length := (List.findIdx?_eq_some_iff_getElem.1 hi).1
    have hstold : s.Told (i, f) :=
      ⟨i, nodeIndex_eq_ok_iff.2 ⟨rfl, hsa.nodes ▸ hlt⟩, hf i ((hsa.nodeNamed_eq name).trans hi)⟩
    obtain ⟨b, hb, hsb⟩ := hint_greatest hw.toLinked hsa hstold
    have hnamesb : ∀ h ∈ told, h.1 ∈ b.nodes.map Node.name := by
      rw [(hint_sameGraph hb).1.nodes]
      exact fun h hh => hnames h (.tail _ hh)
    obtain ⟨c, hc, hsc⟩ := hintAll_greatest (hint_wellFormed hw hb) hnamesb hsb htold
    exact ⟨c, hintAll_cons.2 ⟨b, (hintByName_eq hw hi f).trans hb, hc⟩, hsc⟩

/-! ### Hints in a table -/

theorem lastTold_sameGraph (a : Analysis) (told : List (String × TensorFact)) : SameGraph (a.lastTold told) a := by
  refine ⟨rfl, ?_, rfl, rfl, rfl, rfl, rfl⟩
  rw [lastTold, List.map_map]
  rfl

section

variable (hw : WellFormed a) (hunknown : ∀ e ∈ a.edges, e.fact = .unknown)
include hunknown

theorem lastTold_refines (told : List (String × TensorFact)) : Refines (a.lastTold told) a := by
  refine ⟨lastTold_sameGraph a told, fun j d e _ he => ?_⟩
  rw [hunknown e (List.mem_of_getElem? he)]
  exact d.fact.refines_unknown

theorem fact_lastTold {d : Edge} (hd : d ∈ (a.lastTold told).edges) :
    d.fact = (d.source.bind fun i => (a.toldOf told i).getLast?).getD .unknown := by
  obtain ⟨e, he, rfl⟩ := List.mem_map.1 hd
  show (e.source.bind fun i => (a.toldOf told i).getLast?).getD e.fact = _
  rw [hunknown e he]

theorem fact_lastTold_from {i : Nat} {d : Edge} (hd : d ∈ (a.lastTold told).edgesFrom i) :
    d.fact = (a.toldOf told i).getLast?.getD .unknown := by
  obtain ⟨hmem, hs⟩ := mem_edgesFrom.1 hd
  rw [fact_lastTold hunknown hmem, hs, Option.bind_some]

include hw

/-- What hints come to that tell of each node no more than one of them does is what this
one tells. -/
theorem eq_lastTold {entries : List (String × TensorFact)} {c : Analysis} (hvalues : ∀ h ∈ entries, h.2.value = none)
    (hc : a.hintAll entries = .ok c) (hsc : Refines (a.lastTold told) c)
    (hlast : ∀ i, ∀ g ∈ (a.toldOf told i).getLast?, g ∈ a.toldOf entries i) : c = a.lastTold told := by
  obtain ⟨hwc, hframe, hca, hknows⟩ := hintAll_lower hw hc
  have hstart : AllFacts (fun f => f.value = none) a := fun e he => by rw [hunknown e he]; rfl
  obtain ⟨-, hvaluesc, -⟩ := hintAll_induction (fun f => f.value = none)
    (fun _ h hf hb => TensorFact.meetClosed_unvalued.hint h hf hb) hw hstart hvalues hc
  have hedges : c.edges = (a.lastTold told).edges := by
    refine List.ext_getElem hsc.length_edges.symm fun j hj hj' => ?_
    have hd : c.edges[j]? = some c.edges[j] := List.getElem?_eq_getElem hj
    have he : (a.lastTold told).edges[j]? = some (a.lastTold told).edges[j] := List.getElem?_eq_getElem hj'
    have hends := hsc.toSameGraph.ends_of_getElem? he hd
    have hunvalued := hvaluesc _ (List.getElem_mem hj)
    refine Edge.eq_of_ends hends.symm (TensorFact.eq_of_refines ?_ (hsc.facts j _ _ he hd) hunvalued)
    rw [fact_lastTold hunknown (List.getElem_mem hj'), (Edge.ends_eq_iff.1 hends).2.1]
    cases hg : c.edges[j].source.bind fun i => (a.toldOf told i).getLast? with
    | none => exact TensorFact.refines_unknown _
    | some g =>
      obtain ⟨i, hs, hg⟩ := Option.bind_eq_some_iff.1 hg
      have htold : g ∈ c.toldOf entries i := hca.toldOf_eq entries i ▸ hlast i g hg
      exact hknows i g htold _ (mem_edgesFrom.2 ⟨List.getElem_mem hj, hs⟩)
  rw [hframe, hedges]
  rfl

/-- **Of a table of hints each node knows what is told of it last.** -/
theorem hintAll_ofList (hnames : ∀ h ∈ told, h.1 ∈ a.nodes.map Node.name) (hvalues : ∀ h ∈ told, h.2.value = none) :
    a.hintAll (Table.ofList told) = .ok (a.lastTold told) := by
  have htable {h : String × TensorFact} (hh : h ∈ Table.ofList told) : h ∈ told := Table.mem_of_mem_ofList hh
  have hlast (i : Nat) {g : TensorFact} : g ∈ a.toldOf (Table.ofList told) i ↔ g ∈ (a.toldOf told i).getLast? := by
    rw [toldOf_ofList]
    exact Option.mem_toList
  have hknows : (a.lastTold told).KnowsAll (Table.ofList told) := by
    intro i f hf e he
    rw [(lastTold_sameGraph a told).toldOf_eq, hlast] at hf
    rw [fact_lastTold_from hunknown he, hf, Option.getD_some]
    exact .refl f
  obtain ⟨c, hc, hsc⟩ := hintAll_greatest hw (fun h hh => hnames h (htable hh)) (lastTold_refines hunknown told) hknows
  rw [hc, eq_lastTold hw hunknown (fun h hh => hvalues h (htable hh)) hc hsc fun i g hg => (hlast i).2 hg]

/-- Hints given one by one come to the same as their table exactly if what is told of a
node last says all that is told of it. -/
theorem hintAll_eq_lastTold_iff (hnames : ∀ h ∈ told, h.1 ∈ a.nodes.map Node.name)
    (hvalues : ∀ h ∈ told, h.2.value = none) : a.hintAll told = .ok (a.lastTold told) ↔
    ∀ i, a.edgesFrom i ≠ [] → ∀ g ∈ (a.toldOf told i).getLast?, ∀ f ∈ a.toldOf told i, g.Refines f := by
  have hsame := lastTold_sameGraph a told
  constructor
  · intro h i hne g hg f hf
    obtain ⟨-, -, -, hknows⟩ := hintAll_lower hw h
    obtain ⟨e, he⟩ := List.exists_mem_of_ne_nil _ hne
    obtain ⟨d, hd, -⟩ := hsame.symm.exists_edgeFrom (hsame.linked hw.toLinked) he
    have hle : d.fact.Refines f := hknows i f (hsame.toldOf_eq told i ▸ hf) d hd
    rwa [fact_lastTold_from hunknown hd, hg, Option.getD_some] at hle
  · intro h
    have hknows : (a.lastTold told).KnowsAll told := by
      intro i f hf e he
      rw [hsame.toldOf_eq] at hf
      obtain ⟨g, hg⟩ : ∃ g, (a.toldOf told i).getLast? = some g :=
        ⟨_, List.getLast?_eq_some_getLast (List.ne_nil_of_mem hf)⟩
      obtain ⟨d, hd, -⟩ := hsame.exists_edgeFrom hw.toLinked he
      rw [fact_lastTold_from hunknown he, hg]
      exact h i (List.ne_nil_of_mem hd) g hg f hf
    obtain ⟨c, hc, hsc⟩ := hintAll_greatest hw hnames (lastTold_refines hunknown told) hknows
    rw [hc, eq_lastTold hw hunknown hvalues hc hsc fun i g hg => List.mem_of_getLast? hg]

end

/-- **Of hints for one name the last counts.** Take a model, hints that are read and name
nodes of it, and any output. The hints come into a table, and the run of the analysis
starts from what is told of each node last. Hints that are given one by one come to the
same if and only if what is told last of a node with an edge out of it says all that is
told of it. If their names differ, the table is the hints themselves. -/
theorem hintAll_parse {model : Model} {output : String} {id : Int} {limit : Option Nat} {start : Analysis}
    (hid : model.index.find? output = some id) (hstart : Analysis.start model id limit = .ok start)
    {items : List String} {told : List (String × TensorFact)} (hread : items.mapM Hints.parseItem = .ok told)
    (hnames : ∀ h ∈ told, h.1 ∈ model.nodes.map Node.name) :
    Hints.parse items = .ok (Table.ofList told) ∧
    start.hintAll (Table.ofList told) = .ok (start.lastTold told) ∧
    (∀ fold prune, ofModel model output (Table.ofList told) fold prune limit = (do
      let r ← completed (start.lastTold told).run
      let d ← (if fold then r.foldAndRun else pure r)
      if prune then completed d.prune else pure d)) ∧
    (start.hintAll told = .ok (start.lastTold told) ↔ ∀ i, start.edgesFrom i ≠ [] →
      ∀ g ∈ (start.toldOf told i).getLast?, ∀ f ∈ start.toldOf told i, g.Refines f) ∧
    ((told.map Prod.fst).Nodup → Table.ofList told = told) := by
  obtain ⟨hw, -, hunknown, hnodes, -⟩ := start_spec hstart
  rw [← hnodes] at hnames
  have hvalues := Hints.value_of_items hread
  have htable := hintAll_ofList hw hunknown hnames hvalues
  refine ⟨?_, htable, fun fold prune => ?_, hintAll_eq_lastTold_iff hw hunknown hnames hvalues, Table.ofList_of_nodup⟩
  · rw [Hints.parse, hread, ok_bind]
    rfl
  · rw [ofModel, hid]
    simp only [hstart, htable, ok_bind]
    cases fold <;> rfl

/-- Of two hints for one input of which the later says more nothing is lost. -/
theorem repeated_hint_kept : ∃ a told, start chain 1 none = .ok a ∧
    ["x=[1,..]", "x=[1,2]"].mapM Hints.parseItem = .ok told ∧
    Hints.parse ["x=[1,..]", "x=[1,2]"] = .ok (Table.ofList told) ∧
    a.hintAll (Table.ofList told) = .ok (a.lastTold told) ∧ a.hintAll told = .ok (a.lastTold told) ∧
    ∀ g ∈ (a.toldOf told 0).getLast?, ∀ f ∈ a.toldOf told 0, g.Refines f := by
  obtain ⟨a, told, hstart, hread, hnames, hall, hne⟩ : ∃ a told, start chain 1 none = .ok a ∧
      ["x=[1,..]", "x=[1,2]"].mapM Hints.parseItem = .ok told ∧
      (∀ h ∈ told, h.1 ∈ chain.nodes.map Node.name) ∧ a.hintAll told = .ok (a.lastTold told) ∧ a.edgesFrom 0 ≠ [] :=
    ⟨_, [("x", .ofShape none (.starting [.known 1])), ("x", .ofShape none (.closed [.known 1, .known 2]))],
      rfl, rfl, by simp [chain], rfl, List.cons_ne_nil _ _⟩
  have hid : chain.index.find? "y" = some 1 := rfl
  obtain ⟨hparse, htable, -, hiff, -⟩ := hintAll_parse hid hstart hread hnames
  exact ⟨a, told, hstart, hread, hparse, htable, hall, hiff.1 hall 0 hne⟩

/-- Two hints for one input that fit are given one by one, but of their table the second alone
counts; and of two that contradict each other it counts as well, where one by one they fail. -/
theorem repeated_hint_lost : ∃ a told b c contradiction d e, start chain 1 none = .ok a ∧
    ["x=float32", "x=[1,2]"].mapM Hints.parseItem = .ok told ∧
    (Hints.parse ["x=float32", "x=[1,2]"] >>= a.hintAll) = .ok b ∧ a.hintAll told = .ok c ∧
    b.outputFact 0 = .ok (.ofShape none (.closed [.known 1, .known 2])) ∧
    c.outputFact 0 = .ok (.ofShape (some (.elem (.float .w32))) (.closed [.known 1, .known 2])) ∧
    ["x=int32", "x=float32"].mapM Hints.parseItem = .ok contradiction ∧
    (Hints.parse ["x=int32", "x=float32"] >>= a.hintAll) = .ok d ∧
    a.hintAll contradiction = .error e ∧ e.IsClash :=
  ⟨_, _, _, _, _, _, _, rfl, rfl, rfl, rfl, rfl, rfl, rfl, rfl, rfl, _, _, rfl⟩

end Analysis

end EdgeFacts
