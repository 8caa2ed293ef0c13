import PolicyReach.Proofs.Flow.Results
import PolicyReach.Proofs.Session.Calls

/-!
# The graphs of a session

Whatever is called, every flow session holds an index whose weights are in range, of the scope that its
kind needs, and a graph that has been grown from this index within the limit
(`FlowSession.Founded`). What a call makes of a flow session keeps this (`FlowSession.Step.founded`), so
does every call (`Effect.founded`), and so does every run that loads permission maps which have been
built by insertion or read from a file (**`after_founded`**).
-/

namespace PolicyReach

/-- A flow session has a sound index of the scope that its kind needs, and a graph grown from it. -/
structure FlowSession.Founded (config : Config) (v : FlowSession) : Prop where
  index : v.index.Index
  scope : v.index.criteria.scope = v.kind.scope
  grown : FlowGraph.Grown config.maxGraphEdges v.index v.graph

theorem FlowSession.Founded.transitive {config : Config} {v : FlowSession} {direction : ReachDirection}
    (hv : v.Founded config) (hkind : v.kind = .reach direction) :
    v.index.criteria.scope = .transitive direction := by
  rw [hv.scope, hkind]
  rfl

/-- A flow session is founded when it begins. -/
theorem FlowSession.Founded.begun {config : Config} {p : Policy} {m : PermissionMap}
    {criteria : Criteria} {kind : FlowKind} {filter : Option NameFilter} {start : TypeName}
    {graph : FlowGraph} (hm : m.Built) (hscope : criteria.scope = kind.scope)
    (hgraph : (p.flows m criteria).selectFrom config.maxGraphEdges start = .ok graph) :
    FlowSession.Founded config { index := p.flows m criteria, graph, kind, filter } where
  index := FlowGraph.index_of_built hm p criteria
  scope := by
    rw [Policy.flows_criteria]
    exact hscope
  grown := (FlowGraph.grow_grown (p.flows_sound m criteria) (FlowGraph.grown_empty _ _) hgraph).1

theorem FlowSession.Step.founded {config : Config} {c : Call} {v v' : FlowSession}
    (hv : v.Founded config) (h : v.Step config c v') : v'.Founded config := by
  have hgrow {root : TypeName} {graph : FlowGraph}
      (hg : v.index.grow config.maxGraphEdges v.graph root = .ok graph) :
      FlowGraph.Grown config.maxGraphEdges v.index graph :=
    (FlowGraph.grow_grown hv.index.sound hv.grown hg).1
  cases h with
  | continued grown => exact ⟨hv.index, hv.scope, hgrow grown⟩
  | prepared call kind ends grown => exact ⟨hv.index, hv.scope, hgrow grown⟩
  | taken call under next => exact ⟨hv.index, hv.scope, hv.grown⟩
  | aborted call => exact ⟨hv.index, hv.scope, hv.grown⟩

namespace Session

/-- Every flow session of the session is founded, and its permission map gives weights in range. -/
structure Founded (s : Session) : Prop where
  sound : Registry.Sound s.registry
  permissions : ∀ m, s.permissions = some m → m.Built
  flows : Registry.All (fun e => e.value.Founded s.config) s.registry

variable {s s' : Session} {c : Call}

theorem Initial.founded (h : Initial s) : s.Founded := by
  obtain ⟨config, rfl | ⟨p, rfl⟩⟩ := h
  · exact ⟨Registry.sound_empty, fun _ => (nomatch ·), Registry.all_empty _⟩
  · exact ⟨Registry.sound_empty, fun _ => (nomatch ·), Registry.all_empty _⟩

/-- **Every call keeps the flow sessions founded**, if the map that it loads has been built. -/
theorem Effect.founded (hs : s.Founded) (hmaps : ∀ m, c.Loads m → m.Built) (he : Effect s c s') :
    s'.Founded := by
  have hpermissions : ∀ m, s'.permissions = some m → m.Built := by
    cases he with
    | mapChanged m loads => exact fun x hx => Option.some.inj hx ▸ hmaps m loads
    | _ => exact hs.permissions
  have hconfig := he.config
  refine ⟨he.sound hs.sound, hpermissions, ?_⟩
  rw [hconfig]
  refine he.flows hs.sound hs.flows ?_ fun v v' hv hstep => hstep.founded hv
  intro p m criteria kind filter start graph hm hscope hselected
  exact .begun (hs.permissions m hm) hscope hselected

/-- The maps that the first call of a run loads have been built, if those of the run have. -/
theorem loads_built {cs : List Call} (hmaps : ∀ m, .loadPermissions m ∈ c :: cs → m.Built) :
    ∀ m, c.Loads m → m.Built := by
  rintro m (rfl | ⟨file, rfl, hfile⟩)
  · exact hmaps m List.mem_cons_self
  · exact .ofFile hfile

theorem config_after (s : Session) (cs : List Call) : (s.after cs).config = s.config := by
  induction cs generalizing s with
  | nil => rfl
  | cons c cs ih => rw [after_cons, ih, (call_effect s c).config]

/-- **Every run keeps the flow sessions founded**, if the maps that it loads have been built. -/
theorem after_founded {cs : List Call} (hs : s.Founded)
    (hmaps : ∀ m, .loadPermissions m ∈ cs → m.Built) : (s.after cs).Founded := by
  induction cs generalizing s with
  | nil => exact hs
  | cons c cs ih =>
    rw [after_cons]
    exact ih ((call_effect s c).founded hs (loads_built hmaps))
      fun m hm => hmaps m (List.mem_cons_of_mem c hm)

end Session

end PolicyReach
