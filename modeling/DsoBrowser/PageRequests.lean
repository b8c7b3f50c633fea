import DsoBrowser.DsoPsirp

/-!
# What the resolving tasks request

The tasks that resolve a page's resources go through them one by one: they fetch a resource, or add
its inline text, while there is room in the item table. So what a schedule of them does is a list
of requests, served one after another (`runTasks_eq`).

* Serving only adds items made of the parsed resources (`Resolved`).
* An item has only a pointer to the data of an entry, which the content store may free while the
  next resource is fetched. What is left unfreed is settled fetch by fetch (`keepsShown_iff`).
-/

namespace DsoBrowser

universe u

variable {ν : Type u} {node : PageNode ν}

/-! ## What the resolving tasks do -/

/-- What a resolving task does for a resource. -/
inductive Request
  /-- fetch it, for an item of this type -/
  | fetch : DsoPsirpContentType → HtmlResource → Request
  /-- add its inline text -/
  | inline : HtmlResource → Request

/-- The fetches of the resources of one type. -/
def fetchRequests (wanted : HtmlResourceType) (type : DsoPsirpContentType)
    (resources : List HtmlResource) : List Request :=
  (resources.filter (·.type = wanted)).map (.fetch type)

/-- The style elements. -/
def inlineRequests (resources : List HtmlResource) : List Request :=
  (resources.filter (·.type = .inlineCss)).map .inline

/-- What a task does, while there is room. -/
def taskRequests (resources : List HtmlResource) : DsoTask → List Request
  | .fetchCss => fetchRequests .stylesheet .css resources ++ inlineRequests resources
  | .fetchImages => fetchRequests .image .image resources
  | .fetchScripts => fetchRequests .script .js resources
  | _ => []

/-- One request. -/
def serve (node : PageNode ν) (ctx : DsoPsirpCtx ν) : Request → DsoPsirpCtx ν
  | .fetch type res =>
    if ctx.items.length < dsoPsirpMaxItems then
      match node.fetch ctx.net (psirpNameInit res.name).2 with
      | (none, net) => { ctx with net := net }
      | (some entry, net) => ({ ctx with net := net }).push (fetchedItem entry type)
    else ctx
  | .inline res =>
    if ctx.items.length < dsoPsirpMaxItems then ctx.push (inlineItem res) else ctx

/-- Requests, one after another. -/
def serveAll (node : PageNode ν) (requests : List Request) (ctx : DsoPsirpCtx ν) :
    DsoPsirpCtx ν :=
  requests.foldl (serve node) ctx

theorem serveAll_cons (request : Request) (requests : List Request) (ctx : DsoPsirpCtx ν) :
    serveAll node (request :: requests) ctx = serveAll node requests (serve node ctx request) := rfl

theorem serveAll_append (requests requests' : List Request) (ctx : DsoPsirpCtx ν) :
    serveAll node (requests ++ requests') ctx =
      serveAll node requests' (serveAll node requests ctx) := List.foldl_append

theorem serve_of_full {ctx : DsoPsirpCtx ν} (h : ¬ ctx.items.length < dsoPsirpMaxItems)
    (request : Request) : serve node ctx request = ctx := by
  cases request with
  | fetch type res => rw [serve, if_neg h]
  | inline res => rw [serve, if_neg h]

/-- Without room nothing is served. -/
theorem serveAll_of_full {ctx : DsoPsirpCtx ν} (h : ¬ ctx.items.length < dsoPsirpMaxItems)
    (requests : List Request) : serveAll node requests ctx = ctx := by
  induction requests with
  | nil => rfl
  | cons request requests ih => rw [serveAll_cons, serve_of_full h, ih]

theorem resolveLoop_eq (wanted : HtmlResourceType) (type : DsoPsirpContentType) :
    ∀ (rest : List HtmlResource) (ctx : DsoPsirpCtx ν),
      resolveLoop node wanted type rest ctx =
        serveAll node (fetchRequests wanted type rest) ctx := by
  intro rest
  induction rest with
  | nil => exact fun _ => rfl
  | cons res rest ih =>
    intro ctx
    rw [resolveLoop, fetchRequests, List.filter_cons]
    simp only [decide_eq_true_eq]
    by_cases hroom : ctx.items.length < dsoPsirpMaxItems
    · rw [if_pos hroom]
      by_cases hwanted : res.type = wanted
      · rw [if_pos hwanted, if_pos hwanted, List.map_cons, serveAll_cons, serve, if_pos hroom]
        rcases hanswer : node.fetch ctx.net (psirpNameInit res.name).2 with ⟨_ | entry, net⟩
        · exact ih _
        · exact ih _
      · rw [if_neg hwanted, if_neg hwanted]
        exact ih ctx
    · rw [if_neg hroom, serveAll_of_full hroom]

variable (node) in
theorem inlineLoop_eq : ∀ (rest : List HtmlResource) (ctx : DsoPsirpCtx ν),
    inlineLoop rest ctx = serveAll node (inlineRequests rest) ctx := by
  intro rest
  induction rest with
  | nil => exact fun _ => rfl
  | cons res rest ih =>
    intro ctx
    rw [inlineLoop, inlineRequests, List.filter_cons]
    simp only [decide_eq_true_eq]
    by_cases hroom : ctx.items.length < dsoPsirpMaxItems
    · rw [if_pos hroom]
      by_cases htype : res.type = .inlineCss
      · rw [if_pos htype, if_pos htype, List.map_cons, serveAll_cons, serve, if_pos hroom]
        exact ih _
      · rw [if_neg htype, if_neg htype]
        exact ih ctx
    · rw [if_neg hroom, serveAll_of_full hroom]

/-! ## What they add -/

/-- The resources that are fetched, with the type of the items made of them. -/
def fetchedTypes : List (HtmlResourceType × DsoPsirpContentType) :=
  [(.stylesheet, .css), (.image, .image), (.script, .js)]

/-- The item was made of the resource: of what the network answered for its name, or of its inline
text. -/
inductive Made (node : PageNode ν) (res : HtmlResource) : DsoPsirpContent → Prop
  | fetched {net : ν} {entry : FetchedEntry} {type : DsoPsirpContentType} :
      (res.type, type) ∈ fetchedTypes → (node.fetch net (psirpNameInit res.name).2).1 = some entry →
      Made node res (fetchedItem entry type)
  | inline : res.type = .inlineCss → Made node res (inlineItem res)

/-- The context has become `ctx'` by items made of its parsed resources. -/
structure Resolved (node : PageNode ν) (ctx ctx' : DsoPsirpCtx ν) : Prop where
  items : ∃ added, ctx'.items = ctx.items ++ added ∧
    ∀ item ∈ added, ∃ res ∈ ctx.htmlResult.resources, Made node res item
  htmlResult : ctx'.htmlResult = ctx.htmlResult
  pageHtml : ctx'.pageHtml = ctx.pageHtml

namespace Resolved

theorem refl (ctx : DsoPsirpCtx ν) : Resolved node ctx ctx :=
  ⟨⟨[], (List.append_nil _).symm, fun _ h => absurd h List.not_mem_nil⟩, rfl, rfl⟩

theorem trans {ctx₁ ctx₂ ctx₃ : DsoPsirpCtx ν} (h₁ : Resolved node ctx₁ ctx₂)
    (h₂ : Resolved node ctx₂ ctx₃) : Resolved node ctx₁ ctx₃ := by
  obtain ⟨added₁, hitems₁, hmade₁⟩ := h₁.items
  obtain ⟨added₂, hitems₂, hmade₂⟩ := h₂.items
  rw [h₁.htmlResult] at hmade₂
  refine ⟨⟨added₁ ++ added₂, by rw [hitems₂, hitems₁, List.append_assoc], ?_⟩,
    h₂.htmlResult.trans h₁.htmlResult, h₂.pageHtml.trans h₁.pageHtml⟩
  intro item hitem
  exact (List.mem_append.mp hitem).elim (hmade₁ item) (hmade₂ item)

/-- The node is not part of it. -/
theorem moved (ctx : DsoPsirpCtx ν) (net : ν) : Resolved node ctx { ctx with net := net } :=
  ⟨(refl ctx).items, rfl, rfl⟩

theorem push {ctx : DsoPsirpCtx ν} {res : HtmlResource} {item : DsoPsirpContent}
    (hres : res ∈ ctx.htmlResult.resources) (hmade : Made node res item) :
    Resolved node ctx (ctx.push item) :=
  ⟨⟨[item], rfl, fun _ h => ⟨res, hres, List.mem_singleton.mp h ▸ hmade⟩⟩, rfl, rfl⟩

end Resolved

/-- It is a request for one of these resources. -/
inductive Request.For (resources : List HtmlResource) : Request → Prop
  | fetch {type : DsoPsirpContentType} {res : HtmlResource} :
      res ∈ resources → (res.type, type) ∈ fetchedTypes → Request.For resources (.fetch type res)
  | inline {res : HtmlResource} :
      res ∈ resources → res.type = .inlineCss → Request.For resources (.inline res)

theorem for_of_mem_fetchRequests {resources : List HtmlResource} {wanted : HtmlResourceType}
    {type : DsoPsirpContentType} (h : (wanted, type) ∈ fetchedTypes) {request : Request}
    (hmem : request ∈ fetchRequests wanted type resources) : request.For resources := by
  obtain ⟨res, hres, rfl⟩ := List.mem_map.mp hmem
  obtain ⟨hres, htype⟩ := List.mem_filter.mp hres
  exact .fetch hres (of_decide_eq_true htype ▸ h)

theorem for_of_mem_taskRequests {resources : List HtmlResource} {task : DsoTask}
    {request : Request} (hmem : request ∈ taskRequests resources task) : request.For resources := by
  cases task with
  | fetchCss =>
    rcases List.mem_append.mp hmem with hmem | hmem
    · exact for_of_mem_fetchRequests (by decide) hmem
    · obtain ⟨res, hres, rfl⟩ := List.mem_map.mp hmem
      obtain ⟨hres, htype⟩ := List.mem_filter.mp hres
      exact .inline hres (of_decide_eq_true htype)
  | fetchImages => exact for_of_mem_fetchRequests (by decide) hmem
  | fetchScripts => exact for_of_mem_fetchRequests (by decide) hmem
  | fetchHtml | parseHtml | render => exact absurd hmem List.not_mem_nil

/-- A request served. -/
theorem resolved_serve {ctx : DsoPsirpCtx ν} {request : Request}
    (h : request.For ctx.htmlResult.resources) : Resolved node ctx (serve node ctx request) := by
  by_cases hroom : ctx.items.length < dsoPsirpMaxItems
  swap
  · rw [serve_of_full hroom]
    exact .refl ctx
  cases h with
  | @fetch type res hres htype =>
    rw [serve, if_pos hroom]
    rcases hanswer : node.fetch ctx.net (psirpNameInit res.name).2 with ⟨_ | entry, net⟩
    · exact .moved ctx net
    · have hmade : Made node res (fetchedItem entry type) := .fetched htype (by rw [hanswer])
      have hpush : Resolved node { ctx with net := net }
          (({ ctx with net := net } : DsoPsirpCtx ν).push (fetchedItem entry type)) :=
        .push hres hmade
      exact (Resolved.moved ctx net).trans hpush
  | inline hres htype =>
    rw [serve, if_pos hroom]
    exact .push hres (.inline htype)

theorem resolved_serveAll : ∀ (requests : List Request) (ctx : DsoPsirpCtx ν),
    (∀ request ∈ requests, request.For ctx.htmlResult.resources) →
      Resolved node ctx (serveAll node requests ctx) := by
  intro requests
  induction requests with
  | nil => exact fun ctx _ => .refl ctx
  | cons request requests ih =>
    intro ctx h
    have hserve : Resolved node ctx (serve node ctx request) :=
      resolved_serve (h request List.mem_cons_self)
    refine hserve.trans (ih _ fun request' hmem => ?_)
    rw [hserve.htmlResult]
    exact h request' (List.mem_cons_of_mem _ hmem)

/-- The requests of tasks that run one after another. -/
def requestsOf (order : List DsoTask) (resources : List HtmlResource) : List Request :=
  order.flatMap (taskRequests resources)

theorem resolved_requestsOf (order : List DsoTask) (ctx : DsoPsirpCtx ν) :
    Resolved node ctx (serveAll node (requestsOf order ctx.htmlResult.resources) ctx) :=
  resolved_serveAll _ ctx fun request hmem => by
    obtain ⟨task, -, hmem⟩ := List.mem_flatMap.mp hmem
    exact for_of_mem_taskRequests hmem

theorem runTask_eq {task : DsoTask} (h : task ∈ resolveTasks) (ctx : DsoPsirpCtx ν) :
    runTask node ctx task =
      .ok (serveAll node (taskRequests ctx.htmlResult.resources task) ctx) := by
  rw [resolveTasks, List.mem_cons, List.mem_cons, List.mem_singleton] at h
  rcases h with rfl | rfl | rfl
  · change Except.ok (inlineLoop _ (resolveLoop node _ _ _ ctx)) = _
    rw [inlineLoop_eq node, resolveLoop_eq, taskRequests, serveAll_append]
  · change Except.ok (resolveLoop node _ _ _ ctx) = _
    rw [resolveLoop_eq, taskRequests]
  · change Except.ok (resolveLoop node _ _ _ ctx) = _
    rw [resolveLoop_eq, taskRequests]

variable (node) in
/-- The resolving tasks run through, in any order, and serve their requests. -/
theorem runTasks_eq : ∀ (order : List DsoTask) (ctx : DsoPsirpCtx ν), order ⊆ resolveTasks →
    runTasks node order ctx =
      .ok (serveAll node (requestsOf order ctx.htmlResult.resources) ctx) := by
  intro order
  induction order with
  | nil => exact fun ctx _ => rfl
  | cons task order ih =>
    intro ctx hsub
    obtain ⟨htask, horder⟩ := List.cons_subset.mp hsub
    have hkept : (serveAll node (taskRequests ctx.htmlResult.resources task) ctx).htmlResult =
        ctx.htmlResult :=
      (resolved_serveAll _ ctx fun _ hmem => for_of_mem_taskRequests hmem).htmlResult
    have hrest := ih (serveAll node (taskRequests ctx.htmlResult.resources task) ctx) horder
    rw [hkept] at hrest
    rw [runTasks, List.foldlM_cons, runTask_eq htask, requestsOf, List.flatMap_cons,
      serveAll_append]
    exact hrest

/-! ## What they leave unfreed -/

/-- The accessors show items of this type. -/
def Shown (type : DsoPsirpContentType) : Prop := type = .css ∨ type = .image

instance (type : DsoPsirpContentType) : Decidable (Shown type) :=
  inferInstanceAs (Decidable (_ ∨ _))

/-- The allocation that an item's data is in, if the accessors show the item. -/
def shownBlock (item : DsoPsirpContent) : Option Nat :=
  if Shown item.type then item.data.block else none

/-- **No fetch frees the data of an item that is shown**: with so many items in the table, and the
data of those shown in these allocations, none of the fetches that the requests come to frees one of
them, nor the data of an item shown that was added before it. -/
def KeepsShown (node : PageNode ν) : List Request → Nat → ν → List Nat → Prop
  | [], _, _, _ => True
  | .inline _ :: rest, count, net, blocks =>
    count < dsoPsirpMaxItems → KeepsShown node rest (count + 1) net blocks
  | .fetch type res :: rest, count, net, blocks => count < dsoPsirpMaxItems →
    let answer := node.fetch net (psirpNameInit res.name).2
    (∀ block ∈ blocks, node.freed answer.2 block = false) ∧
      match answer.1 with
      | none => KeepsShown node rest count answer.2 blocks
      | some entry => KeepsShown node rest (count + 1) answer.2
          (blocks ++ (shownBlock (fetchedItem entry type)).toList)

/-- What is freed stays freed. -/
theorem freed_serve {ctx : DsoPsirpCtx ν} {block : Nat} (h : node.freed ctx.net block = true)
    (request : Request) : node.freed (serve node ctx request).net block = true := by
  by_cases hroom : ctx.items.length < dsoPsirpMaxItems
  swap
  · rw [serve_of_full hroom]
    exact h
  cases request with
  | inline res =>
    rw [serve, if_pos hroom]
    exact h
  | fetch type res =>
    have hfreed := node.freed_fetch (psirpNameInit res.name).2 h
    rw [serve, if_pos hroom]
    rcases hanswer : node.fetch ctx.net (psirpNameInit res.name).2 with ⟨_ | entry, net⟩
    · rwa [hanswer] at hfreed
    · rwa [hanswer] at hfreed

variable (node) in
/-- Items stay. -/
theorem items_serve (ctx : DsoPsirpCtx ν) (request : Request) :
    ctx.items <+: (serve node ctx request).items := by
  by_cases hroom : ctx.items.length < dsoPsirpMaxItems
  swap
  · rw [serve_of_full hroom]
  cases request with
  | inline res =>
    rw [serve, if_pos hroom]
    exact List.prefix_append _ _
  | fetch type res =>
    rw [serve, if_pos hroom]
    rcases node.fetch ctx.net (psirpNameInit res.name).2 with ⟨_ | entry, net⟩
    · exact List.prefix_rfl
    · exact List.prefix_append _ _

theorem filterMap_push (ctx : DsoPsirpCtx ν) (item : DsoPsirpContent) :
    (ctx.push item).items.filterMap shownBlock =
      ctx.items.filterMap shownBlock ++ (shownBlock item).toList := by
  change (ctx.items ++ [item]).filterMap shownBlock = _
  rw [List.filterMap_append]
  cases hblock : shownBlock item <;> simp [hblock]

/-- The data of the page, and of every item that is shown, has not been freed. -/
def Unfreed (node : PageNode ν) (page : Nat) (ctx : DsoPsirpCtx ν) : Prop :=
  ∀ block ∈ page :: ctx.items.filterMap shownBlock, node.freed ctx.net block = false

/-- An item is added whose data has not been freed. -/
theorem Unfreed.push {page : Nat} {ctx : DsoPsirpCtx ν} {entry : FetchedEntry}
    (h : Unfreed node page ctx) (hentry : node.freed ctx.net entry.block = false)
    (type : DsoPsirpContentType) : Unfreed node page (ctx.push (fetchedItem entry type)) := by
  rw [Unfreed, filterMap_push, ← List.cons_append]
  intro block hblock
  rcases List.mem_append.mp hblock with hblock | hblock
  · exact h block hblock
  · change block ∈ (if Shown type then some entry.block else none).toList at hblock
    split at hblock
    · rwa [List.mem_singleton.mp hblock]
    · cases hblock

/-- So it had not been before. -/
theorem Unfreed.before {page : Nat} : ∀ {requests : List Request} {ctx : DsoPsirpCtx ν},
    Unfreed node page (serveAll node requests ctx) → Unfreed node page ctx := by
  intro requests
  induction requests with
  | nil => exact fun h => h
  | cons request requests ih =>
    intro ctx h block hblock
    have hsub := (items_serve node ctx request).filterMap shownBlock
    have hkept := ih h block
      ((List.cons_prefix_cons.mpr ⟨rfl, hsub⟩).subset hblock)
    by_contra hfreed
    rw [freed_serve (Bool.not_eq_false _ ▸ hfreed) request] at hkept
    cases hkept

/-- **What requests leave unfreed** is settled fetch by fetch. -/
theorem keepsShown_iff (page : Nat) : ∀ (requests : List Request) (ctx : DsoPsirpCtx ν),
    Unfreed node page ctx →
      (KeepsShown node requests ctx.items.length ctx.net
          (page :: ctx.items.filterMap shownBlock) ↔
        Unfreed node page (serveAll node requests ctx)) := by
  intro requests
  induction requests with
  | nil => exact fun ctx h => iff_of_true trivial h
  | cons request requests ih =>
    intro ctx h
    by_cases hroom : ctx.items.length < dsoPsirpMaxItems
    swap
    · rw [serveAll_of_full hroom]
      refine iff_of_true ?_ h
      cases request <;> exact fun hroom' => absurd hroom' hroom
    rw [serveAll_cons]
    cases request with
    | inline res =>
      have hblocks : (ctx.push (inlineItem res)).items.filterMap shownBlock =
          ctx.items.filterMap shownBlock := (filterMap_push ctx _).trans (List.append_nil _)
      have hlength : (ctx.push (inlineItem res)).items.length = ctx.items.length + 1 :=
        List.length_append
      have hpush := ih (ctx.push (inlineItem res))
      rw [Unfreed, hblocks, hlength] at hpush
      rw [KeepsShown, serve, if_pos hroom, imp_iff_right hroom]
      exact hpush h
    | fetch type res =>
      rw [KeepsShown, serve, if_pos hroom, imp_iff_right hroom]
      rcases hanswer : node.fetch ctx.net (psirpNameInit res.name).2 with ⟨_ | entry, net⟩
      · have hmoved := ih { ctx with net := net }
        exact ⟨fun hkeeps => (hmoved hkeeps.1).mp hkeeps.2,
          fun hend => ⟨hend.before, (hmoved hend.before).mpr hend⟩⟩
      · -- the entry that is added has just been found in the store
        have hlive : node.freed net entry.block = false := by
          have hfetched := node.freed_fetched (congrArg Prod.fst hanswer)
          rwa [hanswer] at hfetched
        have hpush := ih (({ ctx with net := net } : DsoPsirpCtx ν).push (fetchedItem entry type))
        rw [filterMap_push, ← List.cons_append] at hpush
        have hlength : (({ ctx with net := net } : DsoPsirpCtx ν).push
            (fetchedItem entry type)).items.length = ctx.items.length + 1 := List.length_append
        rw [hlength] at hpush
        constructor
        · rintro ⟨hkept, hkeeps⟩
          have hunfreed : Unfreed node page { ctx with net := net } := hkept
          exact (hpush (hunfreed.push hlive type)).mp hkeeps
        · intro hend
          have hpushed := hend.before
          refine ⟨fun block hblock => hpushed block ?_, (hpush hpushed).mpr hend⟩
          rw [filterMap_push, ← List.cons_append]
          exact List.mem_append_left _ hblock

end DsoBrowser
