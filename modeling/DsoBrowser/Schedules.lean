import DsoBrowser.PageRequests
import DsoBrowser.Lib.Filling

/-!
# Schedules of the resolving tasks

The style sheets, the images and the scripts of a page are fetched by three tasks that the graph
does not order, and that share one item table with room for 64. On a node that always gives the
same answer to a name each task fills in the same items (`runTasks_fill`), so what the accessors
return is the same under every schedule exactly when the tasks do not compete for the last slots
(`sameResults_iff`).
-/

namespace DsoBrowser

open Filling

universe u

variable {ν : Type u}

/-! ## What a task has to add -/

/-- The items of the resources of one type that the network has. -/
def fetchedItems (oracle : PsirpName → Option FetchedEntry) (wanted : HtmlResourceType)
    (type : DsoPsirpContentType) (resources : List HtmlResource) : List DsoPsirpContent :=
  resources.filterMap fun res =>
    if res.type = wanted then (oracle (psirpNameInit res.name).2).map (fetchedItem · type) else none

/-- The items of the style elements. -/
def inlineItems (resources : List HtmlResource) : List DsoPsirpContent :=
  (resources.filter (·.type = .inlineCss)).map inlineItem

/-- The items that a task adds while there is room. -/
def taskItems (oracle : PsirpName → Option FetchedEntry) (resources : List HtmlResource) :
    DsoTask → List DsoPsirpContent
  | .fetchCss => fetchedItems oracle .stylesheet .css resources ++ inlineItems resources
  | .fetchImages => fetchedItems oracle .image .image resources
  | .fetchScripts => fetchedItems oracle .script .js resources
  | _ => []

/-- The type of its items. -/
def taskType : DsoTask → DsoPsirpContentType
  | .fetchCss => .css
  | .fetchImages => .image
  | .fetchScripts => .js
  | _ => .unknown

theorem type_of_mem_fetchedItems {oracle : PsirpName → Option FetchedEntry}
    {wanted : HtmlResourceType} {type : DsoPsirpContentType} {resources : List HtmlResource}
    {item : DsoPsirpContent} (h : item ∈ fetchedItems oracle wanted type resources) :
    item.type = type := by
  obtain ⟨res, -, hres⟩ := List.mem_filterMap.mp h
  split at hres
  next =>
    obtain ⟨entry, -, rfl⟩ := Option.map_eq_some_iff.mp hres
    rfl
  next => cases hres

theorem type_of_mem_taskItems {oracle : PsirpName → Option FetchedEntry}
    {resources : List HtmlResource} {task : DsoTask} {item : DsoPsirpContent}
    (h : item ∈ taskItems oracle resources task) : item.type = taskType task := by
  cases task with
  | fetchCss =>
    rcases List.mem_append.mp h with hfetched | hinline
    · exact type_of_mem_fetchedItems hfetched
    · obtain ⟨res, -, rfl⟩ := List.mem_map.mp hinline
      rfl
  | fetchImages => exact type_of_mem_fetchedItems h
  | fetchScripts => exact type_of_mem_fetchedItems h
  | fetchHtml | parseHtml | render => exact absurd h List.not_mem_nil

/-! ## What it adds -/

section Runs

variable (oracle : PsirpName → Option FetchedEntry) (next : ν → PsirpName → ν)

/-- The item that a request adds. -/
def requestItem : Request → Option DsoPsirpContent
  | .fetch type res => (oracle (psirpNameInit res.name).2).map (fetchedItem · type)
  | .inline res => some (inlineItem res)

/-- Requests add their items while there is room. -/
theorem serveAll_fill : ∀ (requests : List Request) (ctx : DsoPsirpCtx ν),
    (serveAll (answering oracle next) requests ctx).items =
      fill dsoPsirpMaxItems ctx.items (requests.filterMap (requestItem oracle)) := by
  intro requests
  induction requests with
  | nil => exact fun ctx => (fill_nil _ _).symm
  | cons request requests ih =>
    intro ctx
    by_cases hroom : ctx.items.length < dsoPsirpMaxItems
    swap
    · rw [serveAll_of_full hroom, fill_of_full (Nat.not_lt.mp hroom)]
    rw [serveAll_cons, ih, List.filterMap_cons]
    cases request with
    | inline res =>
      rw [serve, if_pos hroom]
      exact (fill_cons hroom _ _).symm
    | fetch type res =>
      rw [serve, if_pos hroom, fetch_answering, requestItem]
      cases oracle (psirpNameInit res.name).2 with
      | none => rfl
      | some entry => exact (fill_cons hroom _ _).symm

theorem filterMap_fetchRequests (wanted : HtmlResourceType) (type : DsoPsirpContentType)
    (resources : List HtmlResource) :
    (fetchRequests wanted type resources).filterMap (requestItem oracle) =
      fetchedItems oracle wanted type resources := by
  rw [fetchRequests, List.filterMap_map, List.filterMap_filter, fetchedItems]
  simp only [decide_eq_true_eq]
  rfl

theorem filterMap_taskRequests (resources : List HtmlResource) (task : DsoTask) :
    (taskRequests resources task).filterMap (requestItem oracle) =
      taskItems oracle resources task := by
  cases task with
  | fetchCss =>
    have hinline : (inlineRequests resources).filterMap (requestItem oracle) =
        inlineItems resources := by
      rw [inlineRequests, List.filterMap_map, inlineItems, ← List.filterMap_eq_map]
      rfl
    rw [taskRequests, List.filterMap_append, filterMap_fetchRequests, hinline]
    rfl
  | fetchImages => exact filterMap_fetchRequests oracle .image .image resources
  | fetchScripts => exact filterMap_fetchRequests oracle .script .js resources
  | fetchHtml | parseHtml | render => rfl

/-- The resolving tasks fill in their items, in the order they run. -/
theorem runTasks_fill (order : List DsoTask) (ctx : DsoPsirpCtx ν) (h : order ⊆ resolveTasks) :
    ∃ ctx', runTasks (answering oracle next) order ctx = .ok ctx' ∧
      ctx'.items = fill dsoPsirpMaxItems ctx.items
        (order.flatMap (taskItems oracle ctx.htmlResult.resources)) := by
  refine ⟨_, runTasks_eq (answering oracle next) order ctx h, ?_⟩
  rw [serveAll_fill, requestsOf, List.filterMap_flatMap]
  simp only [filterMap_taskRequests]

end Runs

/-! ## The accessors after a schedule -/

/-- The item that `dso_psirp_get_css` returns. -/
def cssItem (ctx : DsoPsirpCtx ν) (index : Nat) : Option DsoPsirpContent :=
  (dsoPsirpGetCss ctx index).bind (ctx.items[·]?)

/-- The item that `dso_psirp_get_image` returns. -/
def imageItem (ctx : DsoPsirpCtx ν) (index : Nat) : Option DsoPsirpContent :=
  (dsoPsirpGetImage ctx index).bind (ctx.items[·]?)

/-- **Schedule independence**: under any two schedules the resolving tasks run through and leave a
context in which the accessors return the same items. -/
def SameResults (node : PageNode ν) (ctx : DsoPsirpCtx ν) : Prop :=
  ∀ s₁ s₂ : Schedule, ∃ ctx₁ ctx₂, runTasks node s₁.resolves ctx = .ok ctx₁ ∧
    runTasks node s₂.resolves ctx = .ok ctx₂ ∧
    ∀ index, cssItem ctx₁ index = cssItem ctx₂ index ∧ imageItem ctx₁ index = imageItem ctx₂ index

/-- The tasks fill in the same items of the type, in any order. -/
def SameFilled (oracle : PsirpName → Option FetchedEntry) (ctx : DsoPsirpCtx ν)
    (type : DsoPsirpContentType) : Prop :=
  ∀ order₁ order₂ : List DsoTask, order₁.Perm resolveTasks → order₂.Perm resolveTasks →
    (fill dsoPsirpMaxItems ctx.items
        (order₁.flatMap (taskItems oracle ctx.htmlResult.resources))).filter (·.type = type) =
      (fill dsoPsirpMaxItems ctx.items
        (order₂.flatMap (taskItems oracle ctx.htmlResult.resources))).filter (·.type = type)

theorem Schedule.resolves_of {order : List DsoTask} (h : order.Perm resolveTasks) :
    (Schedule.of order h).resolves = order := by
  have hself : order.filter (· ∈ resolveTasks) = order :=
    List.filter_eq_self.mpr fun task htask => by simpa using h.subset htask
  change (wholeOrder order).filter (· ∈ resolveTasks) = order
  rw [wholeOrder, List.filter_cons_of_neg (by decide), List.filter_cons_of_neg (by decide),
    List.filter_append, hself, List.filter_cons_of_neg (by decide), List.filter_nil,
    List.append_nil]

theorem sameResults_iff_filled {oracle : PsirpName → Option FetchedEntry}
    {next : ν → PsirpName → ν} {ctx : DsoPsirpCtx ν} :
    SameResults (answering oracle next) ctx ↔
      SameFilled oracle ctx .css ∧ SameFilled oracle ctx .image := by
  constructor
  · intro hsame
    have hboth : ∀ {order₁ order₂ : List DsoTask}, order₁.Perm resolveTasks →
        order₂.Perm resolveTasks → ∃ items₁ items₂,
          items₁ = fill dsoPsirpMaxItems ctx.items
            (order₁.flatMap (taskItems oracle ctx.htmlResult.resources)) ∧
          items₂ = fill dsoPsirpMaxItems ctx.items
            (order₂.flatMap (taskItems oracle ctx.htmlResult.resources)) ∧
          items₁.filter (·.type = .css) = items₂.filter (·.type = .css) ∧
          items₁.filter (·.type = .image) = items₂.filter (·.type = .image) := by
      intro order₁ order₂ h₁ h₂
      obtain ⟨ctx₁, ctx₂, hrun₁, hrun₂, hitems⟩ := hsame (.of order₁ h₁) (.of order₂ h₂)
      obtain ⟨ctx₁', hrun₁', hfill₁⟩ := runTasks_fill oracle next order₁ ctx h₁.subset
      obtain ⟨ctx₂', hrun₂', hfill₂⟩ := runTasks_fill oracle next order₂ ctx h₂.subset
      rw [Schedule.resolves_of, hrun₁'] at hrun₁
      rw [Schedule.resolves_of, hrun₂'] at hrun₂
      obtain rfl := Except.ok.inj hrun₁
      obtain rfl := Except.ok.inj hrun₂
      refine ⟨_, _, hfill₁, hfill₂, List.ext_getElem? fun index => ?_,
        List.ext_getElem? fun index => ?_⟩
      · rw [← getOfTypeLoop_bind, ← getOfTypeLoop_bind]
        exact (hitems index).1
      · rw [← getOfTypeLoop_bind, ← getOfTypeLoop_bind]
        exact (hitems index).2
    constructor
    · intro order₁ order₂ h₁ h₂
      obtain ⟨_, _, rfl, rfl, hcss, -⟩ := hboth h₁ h₂
      exact hcss
    · intro order₁ order₂ h₁ h₂
      obtain ⟨_, _, rfl, rfl, -, himage⟩ := hboth h₁ h₂
      exact himage
  · rintro ⟨hcss, himage⟩ s₁ s₂
    obtain ⟨ctx₁, hrun₁, hfill₁⟩ := runTasks_fill oracle next s₁.resolves ctx s₁.resolves_perm.subset
    obtain ⟨ctx₂, hrun₂, hfill₂⟩ := runTasks_fill oracle next s₂.resolves ctx s₂.resolves_perm.subset
    refine ⟨ctx₁, ctx₂, hrun₁, hrun₂, fun index => ⟨?_, ?_⟩⟩
    · rw [cssItem, cssItem, dsoPsirpGetCss, dsoPsirpGetCss, getOfTypeLoop_bind, getOfTypeLoop_bind,
        hfill₁, hfill₂, hcss _ _ s₁.resolves_perm s₂.resolves_perm]
    · rw [imageItem, imageItem, dsoPsirpGetImage, dsoPsirpGetImage, getOfTypeLoop_bind,
        getOfTypeLoop_bind, hfill₁, hfill₂, himage _ _ s₁.resolves_perm s₂.resolves_perm]

/-! ## Competing for the last slots -/

/-- The number of items that a task has to add. -/
def taskCount (oracle : PsirpName → Option FetchedEntry) (ctx : DsoPsirpCtx ν) (task : DsoTask) :
    Nat :=
  (taskItems oracle ctx.htmlResult.resources task).length

/-- **The tasks do not compete**: there is room for what all of them have to add, or for nothing,
or at most one of them has anything to add. -/
def NoContest (oracle : PsirpName → Option FetchedEntry) (ctx : DsoPsirpCtx ν) : Prop :=
  let room := dsoPsirpMaxItems - ctx.items.length
  let css := taskCount oracle ctx .fetchCss
  let images := taskCount oracle ctx .fetchImages
  let scripts := taskCount oracle ctx .fetchScripts
  css + images + scripts ≤ room ∨ room = 0 ∨ (css = 0 ∧ images = 0) ∨
    (css = 0 ∧ scripts = 0) ∨ (images = 0 ∧ scripts = 0)

/-- What one of the observed tasks fills in, in every order. -/
theorem sameFilled_iff (oracle : PsirpName → Option FetchedEntry) (ctx : DsoPsirpCtx ν)
    {task : DsoTask} (h : task ∈ resolveTasks) :
    SameFilled oracle ctx (taskType task) ↔
      (resolveTasks.flatMap (taskItems oracle ctx.htmlResult.resources)).length ≤
          dsoPsirpMaxItems - ctx.items.length ∨
        dsoPsirpMaxItems - ctx.items.length = 0 ∨ taskCount oracle ctx task = 0 ∨
        ((resolveTasks.erase task).flatMap (taskItems oracle ctx.htmlResult.resources)).length =
          0 := by
  refine filter_fill_perm_iff (by decide) h fun t ht item hitem => ?_
  have hinj : ∀ t ∈ resolveTasks, ∀ u ∈ resolveTasks, taskType t = taskType u ↔ t = u := by decide
  rw [decide_eq_true_eq, type_of_mem_taskItems hitem]
  exact hinj t ht task h

/-- **The accessors return the same under every schedule exactly when the resolving tasks do not
compete.** -/
theorem sameResults_iff (oracle : PsirpName → Option FetchedEntry) (next : ν → PsirpName → ν)
    (ctx : DsoPsirpCtx ν) : SameResults (answering oracle next) ctx ↔ NoContest oracle ctx := by
  have hcss := sameFilled_iff oracle ctx (by decide : DsoTask.fetchCss ∈ resolveTasks)
  have himage := sameFilled_iff oracle ctx (by decide : DsoTask.fetchImages ∈ resolveTasks)
  rw [sameResults_iff_filled]
  change SameFilled oracle ctx (taskType .fetchCss) ∧ SameFilled oracle ctx (taskType .fetchImages) ↔ _
  rw [hcss, himage, NoContest]
  have hall : resolveTasks = [.fetchCss, .fetchImages, .fetchScripts] := rfl
  have herase₁ : resolveTasks.erase .fetchCss = [.fetchImages, .fetchScripts] := rfl
  have herase₂ : resolveTasks.erase .fetchImages = [.fetchCss, .fetchScripts] := rfl
  rw [herase₁, herase₂, hall]
  simp only [List.flatMap_cons, List.flatMap_nil, List.append_nil, List.length_append, taskCount]
  omega

/-! ## A crowded page -/

/-- A network that has something under every name. -/
def everything (name : PsirpName) : Option FetchedEntry :=
  some ⟨newEntry name (text ['x']).bytes 0 0, 0⟩

/-- A resource named by its URL. -/
def resourceAt (type : HtmlResourceType) (url : CString) : HtmlResource := ⟨type, url, url, none, 0⟩

/-- A page of 63 style sheets and an image, fetched and parsed. -/
def crowdedPage : DsoPsirpCtx Unit where
  net := ()
  hasDso := true
  items := [⟨PsirpName.zero, .html, .stored 0 (text ['h', 'i']).bytes, true⟩]
  htmlResult := { HtmlParseResult.zero with
    resources := List.replicate 63 (resourceAt .stylesheet (text ['/', 's'])) ++
      [resourceAt .image (text ['/', 'i'])] }
  pageName := PsirpName.zero
  pageHtml := some 0

/-- Whether its image is shown depends on the schedule. -/
theorem not_sameResults_crowded :
    ¬ SameResults (answering everything fun net _ => net) crowdedPage := by
  rw [sameResults_iff_filled]
  rintro ⟨-, himage⟩
  have hcontest := (sameFilled_iff everything crowdedPage
    (by decide : DsoTask.fetchImages ∈ resolveTasks)).mp himage
  have hall : (resolveTasks.flatMap
      (taskItems everything crowdedPage.htmlResult.resources)).length = 64 := rfl
  have himages : taskCount everything crowdedPage .fetchImages = 1 := rfl
  have hothers : ((resolveTasks.erase .fetchImages).flatMap
      (taskItems everything crowdedPage.htmlResult.resources)).length = 63 := rfl
  have hroom : dsoPsirpMaxItems - crowdedPage.items.length = 63 := rfl
  rw [hall, himages, hothers, hroom] at hcontest
  omega

end DsoBrowser
