import Mathlib.Data.List.Sort
import LinkPriority.Proofs.IdOrder
import LinkPriority.Proofs.Service

/-! Other names for jobs and links. Names in the same order make maps with the same values in the same places, so a
request under other names has the same cells, and its layout is the same under the other names. Only the demand is
solved, and a response takes its names from the layout: it is the same response under the other names. -/

namespace LinkPriority

/-- The new names of some ids are in the order of the ids, octet by octet. -/
def KeepsOrder (name : String → String) (ids : List String) : Prop :=
  ∀ a ∈ ids, ∀ b ∈ ids, idOctets a < idOctets b → idOctets (name a) < idOctets (name b)

namespace KeepsOrder

variable {name : String → String} {ids : List String} {a b : String}

instance : Decidable (KeepsOrder name ids) := inferInstanceAs (Decidable (∀ _ ∈ _, ∀ _ ∈ _, _ → _))

theorem lt (h : KeepsOrder name ids) (ha : a ∈ ids) (hb : b ∈ ids) (hlt : a < b) : name a < name b :=
  lt_iff_idOctets_lt.2 (h a ha b hb (lt_iff_idOctets_lt.1 hlt))

theorem inj (h : KeepsOrder name ids) (ha : a ∈ ids) (hb : b ∈ ids) (heq : name a = name b) : a = b := by
  rcases lt_trichotomy a b with hlt | rfl | hgt
  · exact absurd heq (h.lt ha hb hlt).ne
  · rfl
  · exact absurd heq.symm (h.lt hb ha hgt).ne

theorem subset {others : List String} (h : KeepsOrder name ids) (hsubset : others ⊆ ids) : KeepsOrder name others :=
  fun a ha b hb => h a (hsubset ha) b (hsubset hb)

/-- Ascending ids ascend under their new names. -/
theorem pairwise_map (h : KeepsOrder name ids) (hids : ids.Pairwise (· < ·)) : (ids.map name).Pairwise (· < ·) :=
  List.pairwise_map.2 (hids.imp_of_mem fun ha hb => h.lt ha hb)

end KeepsOrder

/-! ### Maps -/

namespace IdMap

variable {β γ : Type} {name : String → String} {ids : List String}

/-- The map of the new values under the new names. -/
def rename (name : String → String) (onValue : β → γ) (m : IdMap β) : IdMap γ :=
  .ofList (m.entries.map fun entry => (name entry.1, onValue entry.2))

section Rename

variable {m : IdMap β} (onValue : β → γ)

theorem entries_rename (h : KeepsOrder name m.ids) :
    (m.rename name onValue).entries = m.entries.map fun entry => (name entry.1, onValue entry.2) := by
  refine entries_ofList (List.pairwise_map.2 (m.ascending.imp_of_mem fun ha hb hlt => ?_))
  exact h.lt (List.mem_map_of_mem ha) (List.mem_map_of_mem hb) hlt

theorem ids_rename (h : KeepsOrder name m.ids) : (m.rename name onValue).ids = m.ids.map name := by
  rw [IdMap.ids, entries_rename onValue h, IdMap.ids, List.map_map, List.map_map]
  rfl

/-- Under a new name is what was under the old one, or nothing if nothing was there. -/
theorem get?_rename (h : KeepsOrder name ids) (hids : m.ids ⊆ ids) {id : String} (hid : id ∈ ids) :
    (m.rename name onValue).get? (name id) = (m.get? id).map onValue := by
  refine Option.ext fun value => ?_
  rw [get?_eq_some, entries_rename onValue (h.subset hids), List.mem_map, Option.map_eq_some_iff]
  constructor
  · rintro ⟨⟨found, old⟩, hmem, heq⟩
    obtain ⟨hname, rfl⟩ := Prod.mk.inj heq
    obtain rfl := h.inj (hids (List.mem_map_of_mem hmem)) hid hname
    exact ⟨old, get?_eq_some.2 hmem, rfl⟩
  · rintro ⟨old, hget, rfl⟩
    exact ⟨(id, old), get?_eq_some.1 hget, rfl⟩

end Rename

/-- The distinct ones of some ids have the same places under their new names. -/
theorem distinctIds_map (h : KeepsOrder name ids) : distinctIds (ids.map name) = (distinctIds ids).map name := by
  have hdistinct : KeepsOrder name (distinctIds ids) := h.subset fun _ => mem_distinctIds.1
  refine List.Pairwise.eq_of_mem_iff (ascending_distinctIds _) (hdistinct.pairwise_map (ascending_distinctIds ids))
    fun id => ?_
  simp only [mem_distinctIds, List.mem_map]

/-- The map of labelled values, renamed, is the map of the values under the new labels. -/
theorem rename_ofList_mapIdx (hids : ids.Pairwise (· < ·)) (f : Nat → β) (onValue : β → γ) :
    (ofList (ids.mapIdx fun i id => (id, f i))).rename name onValue =
      ofList ((ids.map name).mapIdx fun i id => (id, onValue (f i))) := by
  rw [rename, entries_ofList_mapIdx hids]
  refine congrArg ofList (List.ext_getElem (by simp) fun i _ _ => ?_)
  simp only [List.getElem_map, List.getElem_mapIdx]

end IdMap

/-- New names for jobs and for links. -/
structure Renaming where
  job : String → String
  link : String → String

/-- The new names of the jobs are in the order of the old ones, and so are those of the links. -/
structure Renaming.RespectsOrder (f : Renaming) (layout : Layout) : Prop where
  jobs : KeepsOrder f.job layout.jobs
  links : KeepsOrder f.link layout.links

def Layout.rename (layout : Layout) (f : Renaming) : Layout := ⟨layout.jobs.map f.job, layout.links.map f.link⟩

def Request.rename {α : Type} (r : Request α) (f : Renaming) : Request α :=
  ⟨r.jobs.rename f.job fun loads => loads.rename f.link id⟩

def Response.rename (response : Response) (f : Renaming) : Response :=
  ⟨response.ranks.rename f.job fun row => row.rename f.link id⟩

/-! ### Requests -/

namespace Request

variable {α : Type} {r : Request α} {f : Renaming}

theorem ids_subset_links {entry : String × IdMap (Load α)} (h : entry ∈ r.jobs.entries) :
    entry.2.ids ⊆ r.layout.links :=
  fun _ hid => IdMap.mem_distinctIds.2 (List.mem_flatMap.2 ⟨entry, h, hid⟩)

theorem toDemand_eq [Scalar α] (r : Request α) : r.toDemand =
    if r.layout.jobs.isEmpty then .error .noJobs
    else if r.layout.links.isEmpty then .error .noLinks
    else match Demand.ofCells r.layout.jobs.length r.layout.links.length r.cells with
      | .error e => .error (.demand e)
      | .ok d => .ok (d, r.layout) := rfl

section Renamed

variable (hf : f.RespectsOrder r.layout)
include hf

theorem entries_rename : (r.rename f).jobs.entries =
    r.jobs.entries.map fun entry => (f.job entry.1, entry.2.rename f.link id) :=
  IdMap.entries_rename _ hf.jobs

/-- Rows and columns have the new names, in the same places. -/
theorem layout_rename : (r.rename f).layout = r.layout.rename f := by
  have hjobs : (r.rename f).layout.jobs = r.layout.jobs.map f.job := IdMap.ids_rename _ hf.jobs
  have hids : ∀ entry ∈ r.jobs.entries, (entry.2.rename f.link id).ids = entry.2.ids.map f.link :=
    fun entry hentry => IdMap.ids_rename _ (hf.links.subset (ids_subset_links hentry))
  have hlinks : (r.rename f).layout.links = r.layout.links.map f.link := by
    calc (r.rename f).layout.links
        = IdMap.distinctIds (r.jobs.entries.flatMap fun entry => (entry.2.rename f.link id).ids) := by
          rw [layout, entries_rename hf, List.flatMap_map]
      _ = IdMap.distinctIds ((r.jobs.entries.flatMap fun entry => entry.2.ids).map f.link) := by
          rw [List.map_flatMap, List.flatMap_congr hids]
      _ = r.layout.links.map f.link := IdMap.distinctIds_map (hf.links.subset fun _ => IdMap.mem_distinctIds.2)
  rw [Layout.rename, ← hjobs, ← hlinks]

/-- The loads are the same, row after row. -/
theorem cells_rename [Scalar α] : (r.rename f).cells = r.cells := by
  rw [cells, entries_rename hf, layout_rename hf, List.flatMap_map, cells]
  refine List.flatMap_congr fun entry hentry => ?_
  rw [Layout.rename, List.map_map]
  refine List.map_congr_left fun link hlink => ?_
  rw [Function.comp_apply, IdMap.get?_rename id hf.links (ids_subset_links hentry) hlink, Option.map_id, id]

/-- The demand is the same, and its layout has the new names. -/
theorem toDemand_rename [Scalar α] :
    (r.rename f).toDemand = r.toDemand.map fun (d, layout) => (d, layout.rename f) := by
  rw [toDemand_eq, toDemand_eq, layout_rename hf, cells_rename hf, Layout.rename, List.isEmpty_map, List.isEmpty_map,
    List.length_map, List.length_map]
  split_ifs
  · rfl
  · rfl
  · cases Demand.ofCells r.layout.jobs.length r.layout.links.length r.cells <;> rfl

end Renamed

end Request

/-! ### Responses -/

namespace Response

/-- A table under new names is the response to it under the new names. -/
theorem ofPriority_rename {layout : Layout} (hjobs : layout.jobs.Pairwise (· < ·))
    (hlinks : layout.links.Pairwise (· < ·)) (f : Renaming) (p : Priority) :
    ofPriority (layout.rename f) p = (ofPriority layout p).rename f := by
  simp only [ofPriority, rename, Layout.rename, IdMap.rename_ofList_mapIdx hjobs, IdMap.rename_ofList_mapIdx hlinks,
    id]

/-- The response has the rank of each cell under the ids under which the request has the load of that cell. -/
def RanksLoads {α : Type} [Scalar α] (response : Response) (r : Request α) (d : Demand α) (p : Priority) : Prop :=
  ∀ j l job link, r.layout.jobs[j]? = some job → r.layout.links[l]? = some link →
    d.load j l = (r.load? job link).getD .idle ∧ response.rank? job link = some (p.rank j l)

theorem ranksLoads_ofPriority {α : Type} [Scalar α] {r : Request α} {d : Demand α} {layout : Layout}
    (h : r.toDemand = .ok (d, layout)) (p : Priority) : (ofPriority layout p).RanksLoads r d p := by
  obtain ⟨rfl, -⟩ := Request.toDemand_eq_ok h
  intro j l job link hjob hlink
  exact ⟨Request.load_toDemand h hjob hlink,
    rank?_ofPriority r.jobs.ascending_ids (IdMap.ascending_distinctIds _) p hjob hlink⟩

end Response

/-! ### Answers -/

namespace Request

variable {α : Type} [Scalar α] {r : Request α} {f : Renaming}

/-- However selections are drawn, the answer is the same but for the names in its response. -/
theorem answerWith_rename {σ : Type} [IndexSource σ] (hf : f.RespectsOrder r.layout) (settings : Settings)
    (choices : σ) :
    (r.rename f).answerWith settings choices =
      ⟨(r.answerWith settings choices).outcome.map fun response => response.rename f,
        (r.answerWith settings choices).events⟩ := by
  rw [answerWith, answerWith, toDemand_rename hf]
  cases hdemand : r.toDemand with
  | error fault => rfl
  | ok demand =>
    obtain ⟨d, layout⟩ := demand
    obtain ⟨rfl, -⟩ := toDemand_eq_ok hdemand
    have hresponse : ∀ p, Response.ofPriority (r.layout.rename f) p = (Response.ofPriority r.layout p).rename f :=
      Response.ofPriority_rename r.jobs.ascending_ids (IdMap.ascending_distinctIds _) f
    simp only [Except.map, hresponse]
    cases (solveWith d settings choices).outcome <;> rfl

/-- Of its ids nothing but their order matters to the answer to a request. Under other names that are in the order of
the old ones, octet by octet, it has the same demand. Solving it reports the same, and fails in the same way or gives
the same response under the new names. In both responses each rank stands under the ids of the load in the cell that it
is the rank of. -/
theorem answer_rename (hf : f.RespectsOrder r.layout) (settings : Settings) :
    (r.rename f).toDemand = r.toDemand.map (fun (d, layout) => (d, layout.rename f)) ∧
    ((r.rename f).answer settings).events = (r.answer settings).events ∧
    ((r.rename f).answer settings).outcome = (r.answer settings).outcome.map (fun response => response.rename f) ∧
    ∀ response, (r.answer settings).outcome = .ok response →
      ∃ d solution, r.toDemand = .ok (d, r.layout) ∧ (solve d settings).outcome = .ok solution ∧
        response.RanksLoads r d solution.priority ∧
        (response.rename f).RanksLoads (r.rename f) d solution.priority := by
  have hdemand := toDemand_rename hf
  have hanswer := answerWith_rename hf settings (WordStream.ofSeed settings.seed)
  have hevents : ((r.rename f).answer settings).events = (r.answer settings).events := by
    rw [answer, hanswer, answer]
  have houtcome : ((r.rename f).answer settings).outcome =
      (r.answer settings).outcome.map fun response => response.rename f := by
    rw [answer, hanswer, answer]
  refine ⟨hdemand, hevents, houtcome, fun response h => ?_⟩
  obtain ⟨d, layout, solution, hd, hsolution, rfl⟩ := answerWith_eq_ok.1 h
  obtain ⟨rfl, -⟩ := toDemand_eq_ok hd
  refine ⟨d, solution, hd, hsolution, Response.ranksLoads_ofPriority hd _, ?_⟩
  rw [← Response.ofPriority_rename r.jobs.ascending_ids (IdMap.ascending_distinctIds _)]
  exact Response.ranksLoads_ofPriority (hdemand.trans (congrArg (Except.map _) hd)) _

/-- Two jobs on one link, the first with more to send; the second mentions another link, where it asks for nothing. -/
def unevenRequest : Request Tangent where
  jobs := ⟨[("a", ⟨[("x", ⟨⟨1⟩, ⟨8⟩⟩)], by simp⟩), ("b", ⟨[("x", ⟨⟨1⟩, ⟨3⟩⟩), ("y", .idle)], by decide⟩)], by decide⟩

def unevenLoads : Demand Tangent := ⟨⟨2, 2, #[⟨⟨1⟩, ⟨8⟩⟩, .idle, ⟨⟨1⟩, ⟨3⟩⟩, .idle]⟩⟩

/-- The jobs get names of two and of three octets, one link an empty name, and the other the name that this one had. -/
def foreignNames : Renaming where
  job id := if id = "a" then "\u00e9" else "\u4e16"
  link id := if id = "x" then "" else "x"

theorem answer_rename_unevenRequest : foreignNames.RespectsOrder unevenRequest.layout ∧
    ∃ response, (unevenRequest.answer { iterations := 1, warmStart := .identity }).outcome = .ok response ∧
      response.rank? "a" "x" = some 1 ∧ response.rank? "b" "x" = some 0 ∧
      ((unevenRequest.rename foreignNames).answer { iterations := 1, warmStart := .identity }).outcome =
        .ok (response.rename foreignNames) ∧
      (response.rename foreignNames).rank? "\u00e9" "" = some 1 ∧
      (response.rename foreignNames).rank? "\u4e16" "" = some 0 := by
  have horder : foreignNames.RespectsOrder unevenRequest.layout := ⟨by decide +kernel, by decide +kernel⟩
  have hdemand : unevenRequest.toDemand.toOption = some (unevenLoads, ⟨["a", "b"], ["x", "y"]⟩) := by decide +kernel
  have hsolve : (solve unevenLoads { iterations := 1, warmStart := .identity }).outcome.toOption.map
      Solution.priority = some ⟨⟨2, 2, #[1, 0, 0, 0]⟩, rfl⟩ := by cbv
  obtain ⟨solution, hsolve, hpriority⟩ := Option.map_eq_some_iff.1 hsolve
  rw [Except.toOption_eq_some] at hdemand hsolve
  have houtcome := answerWith_eq_ok.2 ⟨unevenLoads, _, solution, hdemand, hsolve, rfl⟩
  obtain ⟨-, -, hrenamed, -⟩ := answer_rename horder { iterations := 1, warmStart := .identity }
  refine ⟨horder, _, houtcome, ?_, ?_, ?_, ?_, ?_⟩
  case refine_3 =>
    rw [hrenamed]
    exact congrArg (Except.map _) houtcome
  all_goals
    rw [hpriority]
    decide +kernel

end Request

end LinkPriority
