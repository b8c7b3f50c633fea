import DsoBrowser.HtmlParse
import DsoBrowser.ContentStore
import Mathlib.Data.List.Permutation

/-!
# The page pipeline

`dso_psirp_fetch_page` registers six tasks with the DSO runtime and lets it run them. The runtime
is not part of the program: a `Schedule` is an order in which it may run the tasks, each once and
none before one it depends on. `psirp_net_fetch` is a parameter here (`PageNode`): it answers an
entry or nothing, and moves the node on.

The items are the list of the slots in use, and a pointer to an item is its index. An item has no
copy of an entry's data but a pointer to it, which the content store may free while a later name is
fetched. The times the context records are left out, as is the timeout of `dso_psirp_fetch_page`,
which nothing reads.
-/

namespace DsoBrowser

universe u

/-! ## Content types -/

/-- `dso_psirp_content_type` -/
inductive DsoPsirpContentType
  | html
  | css
  | js
  | image
  | data
  | unknown
  deriving DecidableEq, Repr

/-- `get_extension`: from the last `.` of the last component on -/
def getExtension (name : PsirpName) : CString :=
  match name.components.getLast? with
  | none => []
  | some last =>
    if last.any (· = ch '.') then ch '.' :: (last.reverse.takeWhile (· ≠ ch '.')).reverse else []

/-- `dso_psirp_detect_type` -/
def dsoPsirpDetectType (name : PsirpName) : DsoPsirpContentType :=
  let ext := getExtension name
  if ext = text ['.', 'h', 't', 'm', 'l'] ∨ ext = text ['.', 'h', 't', 'm'] then .html
  else if ext = text ['.', 'c', 's', 's'] then .css
  else if ext = text ['.', 'j', 's'] then .js
  else if ext = text ['.', 'p', 'n', 'g'] ∨ ext = text ['.', 'j', 'p', 'g'] ∨
      ext = text ['.', 'j', 'p', 'e', 'g'] ∨ ext = text ['.', 'g', 'i', 'f'] ∨
      ext = text ['.', 'w', 'e', 'b', 'p'] ∨ ext = text ['.', 's', 'v', 'g'] then .image
  else .unknown

/-! ## The node -/

/-- An entry that `psirp_net_fetch` returns. -/
structure FetchedEntry extends PsirpCsEntry where
  /-- the allocation that its data is in -/
  block : Nat

/-- The node that pages are fetched from, with states in `ν`. Every allocation of an entry's data
has a number of its own. -/
structure PageNode (ν : Type u) where
  /-- `psirp_net_fetch` -/
  fetch : ν → PsirpName → Option FetchedEntry × ν
  /-- the content store has freed the allocation: the entry was stored over, evicted or removed -/
  freed : ν → Nat → Bool
  /-- an entry that is returned is in the store -/
  freed_fetched {net : ν} {name : PsirpName} {entry : FetchedEntry} :
    (fetch net name).1 = some entry → freed (fetch net name).2 entry.block = false
  /-- what has been freed is not there again -/
  freed_fetch {net : ν} {block : Nat} (name : PsirpName) :
    freed net block = true → freed (fetch net name).2 block = true

variable {ν : Type u}

/-- A network that always gives the same answer to a name, so never frees it, whatever else becomes
of the node. -/
def answering (oracle : PsirpName → Option FetchedEntry) (next : ν → PsirpName → ν) :
    PageNode ν where
  fetch net name := (oracle name, next net name)
  freed _ _ := false
  freed_fetched _ := rfl
  freed_fetch _ h := h

theorem fetch_answering (oracle : PsirpName → Option FetchedEntry) (next : ν → PsirpName → ν)
    (net : ν) (name : PsirpName) :
    (answering oracle next).fetch net name = (oracle name, next net name) := rfl

/-! ## The context -/

/-- What an item's data pointer points at. -/
inductive ItemData
  /-- an entry's data: the allocation, and the bytes that were put there -/
  | stored : Nat → List UInt8 → ItemData
  /-- a resource's `inline_data` and `inline_len` -/
  | inline : Option Nat → Nat → ItemData
  deriving DecidableEq

/-- The allocation, of an entry's data. -/
def ItemData.block : ItemData → Option Nat
  | .stored block _ => some block
  | .inline _ _ => none

/-- `dso_psirp_content` -/
structure DsoPsirpContent where
  name : PsirpName
  type : DsoPsirpContentType
  data : ItemData
  /-- successfully fetched -/
  resolved : Bool
  deriving DecidableEq

/-- The size of the item table. -/
def dsoPsirpMaxItems : Nat := 64

/-- `dso_psirp_ctx`, with a node of type `ν` -/
structure DsoPsirpCtx (ν : Type u) where
  net : ν
  /-- whether the arena had room for the DSO context -/
  hasDso : Bool
  /-- fetched content; `item_count` is their number -/
  items : List DsoPsirpContent
  /-- what the parser found -/
  htmlResult : HtmlParseResult
  pageName : PsirpName
  /-- main HTML content -/
  pageHtml : Option Nat

/-- `dso_psirp_ctx_init` -/
def dsoPsirpCtxInit (net : ν) (hasDso : Bool) : DsoPsirpCtx ν :=
  ⟨net, hasDso, [], HtmlParseResult.zero, PsirpName.zero, none⟩

namespace DsoPsirpCtx

/-- `ctx->items[ctx->item_count++] = item` -/
def push (ctx : DsoPsirpCtx ν) (item : DsoPsirpContent) : DsoPsirpCtx ν :=
  { ctx with items := ctx.items ++ [item] }

/-- The bytes that an item's data pointer points at, if they have not been freed. -/
def bytesOf (ctx : DsoPsirpCtx ν) (item : DsoPsirpContent) : List UInt8 :=
  match item.data with
  | .stored _ bytes => bytes
  | .inline start len =>
    let buf := ctx.htmlResult.inlineCssBuf
    ((buf ++ List.replicate (htmlMaxInlineCss - buf.length) 0).drop (start.getD 0)).take len

/-- What `page_html` points at. -/
def page (ctx : DsoPsirpCtx ν) : Option DsoPsirpContent := ctx.pageHtml.bind (ctx.items[·]?)

end DsoPsirpCtx

/-- The item's data has been freed. -/
def PageNode.dangles (node : PageNode ν) (net : ν) (item : DsoPsirpContent) : Bool :=
  item.data.block.any (node.freed net)

/-- The item made of a fetched entry. -/
def fetchedItem (entry : FetchedEntry) (type : DsoPsirpContentType) : DsoPsirpContent :=
  ⟨(psirpNameInitComponents entry.name.components).2, type, .stored entry.block entry.data, true⟩

/-- The item made of a style element: its name is never set. -/
def inlineItem (res : HtmlResource) : DsoPsirpContent :=
  ⟨PsirpName.zero, .css, .inline res.inlineData res.inlineLen, true⟩

/-! ## The tasks -/

/-- The tasks, as `dso_psirp_build_graph` names them. -/
inductive DsoTask
  | fetchHtml
  | parseHtml
  | fetchCss
  | fetchImages
  | fetchScripts
  | render
  deriving DecidableEq, Repr

/-- The base name that the page is parsed with. -/
def pageBase (name : PsirpName) : CString := name.components.head?.getD [slash]

/-- Why the pipeline goes wrong. -/
inductive PageFault
  /-- a read of data that has been freed -/
  | freed
  /-- a fault of the parser -/
  | parse : HtmlFault → PageFault
  deriving DecidableEq, Repr

section Tasks

variable (node : PageNode ν)

/-- `dso_psirp_task_fetch` -/
def dsoPsirpTaskFetch (ctx : DsoPsirpCtx ν) : DsoPsirpCtx ν :=
  match node.fetch ctx.net ctx.pageName with
  | (none, net) => { ctx with net := net }
  | (some entry, net) =>
    if ctx.items.length < dsoPsirpMaxItems then
      let type := dsoPsirpDetectType entry.name
      { ctx with
        net := net
        items := ctx.items ++ [fetchedItem entry type]
        pageHtml := if type = .html then some ctx.items.length else ctx.pageHtml }
    else { ctx with net := net }

/-- `dso_psirp_task_parse` -/
def dsoPsirpTaskParse (ctx : DsoPsirpCtx ν) : Except PageFault (DsoPsirpCtx ν) :=
  match ctx.page with
  | none => .ok ctx
  | some item =>
    if node.dangles ctx.net item then .error .freed
    else
      let bytes := ctx.bytesOf item
      match htmlParse bytes bytes.length (some (pageBase ctx.pageName)) with
      | .error f => .error (.parse f)
      | .ok result => .ok { ctx with htmlResult := result }

/-- The loop that fetches the resources of one type. -/
def resolveLoop (wanted : HtmlResourceType) (type : DsoPsirpContentType) :
    List HtmlResource → DsoPsirpCtx ν → DsoPsirpCtx ν
  | [], ctx => ctx
  | res :: rest, ctx =>
    if ctx.items.length < dsoPsirpMaxItems then
      if res.type = wanted then
        -- the name is used as far as it was parsed
        match node.fetch ctx.net (psirpNameInit res.name).2 with
        | (none, net) => resolveLoop wanted type rest { ctx with net := net }
        | (some entry, net) =>
          resolveLoop wanted type rest (({ ctx with net := net }).push (fetchedItem entry type))
      else resolveLoop wanted type rest ctx
    else ctx

/-- The loop that adds the inline CSS. -/
def inlineLoop : List HtmlResource → DsoPsirpCtx ν → DsoPsirpCtx ν
  | [], ctx => ctx
  | res :: rest, ctx =>
    if ctx.items.length < dsoPsirpMaxItems then
      if res.type = .inlineCss then inlineLoop rest (ctx.push (inlineItem res))
      else inlineLoop rest ctx
    else ctx

/-- `dso_psirp_task_resolve_css` -/
def dsoPsirpTaskResolveCss (ctx : DsoPsirpCtx ν) : DsoPsirpCtx ν :=
  inlineLoop ctx.htmlResult.resources
    (resolveLoop node .stylesheet .css ctx.htmlResult.resources ctx)

/-- `dso_psirp_task_resolve_images` -/
def dsoPsirpTaskResolveImages (ctx : DsoPsirpCtx ν) : DsoPsirpCtx ν :=
  resolveLoop node .image .image ctx.htmlResult.resources ctx

/-- `dso_psirp_task_resolve_scripts` -/
def dsoPsirpTaskResolveScripts (ctx : DsoPsirpCtx ν) : DsoPsirpCtx ν :=
  resolveLoop node .script .js ctx.htmlResult.resources ctx

/-- `dso_psirp_task_render`, which renders nothing yet -/
def dsoPsirpTaskRender (ctx : DsoPsirpCtx ν) : DsoPsirpCtx ν := ctx

/-- The function registered for a task. -/
def runTask (ctx : DsoPsirpCtx ν) : DsoTask → Except PageFault (DsoPsirpCtx ν)
  | .fetchHtml => .ok (dsoPsirpTaskFetch node ctx)
  | .parseHtml => dsoPsirpTaskParse node ctx
  | .fetchCss => .ok (dsoPsirpTaskResolveCss node ctx)
  | .fetchImages => .ok (dsoPsirpTaskResolveImages node ctx)
  | .fetchScripts => .ok (dsoPsirpTaskResolveScripts node ctx)
  | .render => .ok (dsoPsirpTaskRender ctx)

/-- Tasks run one after another. -/
def runTasks (order : List DsoTask) (ctx : DsoPsirpCtx ν) : Except PageFault (DsoPsirpCtx ν) :=
  order.foldlM (runTask node) ctx

end Tasks

/-! ## The task graph -/

/-- The tasks that `dso_psirp_build_graph` registers. -/
def graphTasks : List DsoTask :=
  [.fetchHtml, .parseHtml, .fetchCss, .fetchImages, .fetchScripts, .render]

/-- Its dependencies: the second task waits for the first. -/
def graphDeps : List (DsoTask × DsoTask) :=
  [(.fetchHtml, .parseHtml), (.parseHtml, .fetchCss), (.parseHtml, .fetchImages),
    (.parseHtml, .fetchScripts), (.fetchCss, .render), (.fetchImages, .render),
    (.fetchScripts, .render)]

/-- An order in which the runtime may run the graph. -/
structure Schedule where
  order : List DsoTask
  perm : order.Perm graphTasks
  respects : ∀ dep ∈ graphDeps, order.idxOf dep.1 < order.idxOf dep.2

/-- The tasks between parsing and rendering. -/
def resolveTasks : List DsoTask := [.fetchCss, .fetchImages, .fetchScripts]

/-- The order a schedule has them in. -/
def Schedule.resolves (s : Schedule) : List DsoTask := s.order.filter (· ∈ resolveTasks)

theorem Schedule.resolves_perm (s : Schedule) : s.resolves.Perm resolveTasks :=
  s.perm.filter _

/-- The order with these tasks between parsing and rendering. -/
def wholeOrder (resolves : List DsoTask) : List DsoTask :=
  .fetchHtml :: .parseHtml :: (resolves ++ [.render])

/-- Any order of the resolving tasks is that of a schedule. -/
def Schedule.of (order : List DsoTask) (h : order.Perm resolveTasks) : Schedule where
  order := wholeOrder order
  perm := ((h.append_right _).cons _).cons _
  respects := by
    have hall : ∀ order ∈ resolveTasks.permutations', ∀ dep ∈ graphDeps,
        (wholeOrder order).idxOf dep.1 < (wholeOrder order).idxOf dep.2 := by decide
    exact hall order (List.mem_permutations'.mpr h)

/-- A schedule fetches, parses, resolves and renders, in that order. -/
theorem Schedule.order_eq (s : Schedule) : s.order = wholeOrder s.resolves := by
  obtain ⟨order, hperm, hrespects⟩ := s
  have hmem : order ∈ graphTasks.permutations' := List.mem_permutations'.mpr hperm
  have hall : ∀ order ∈ graphTasks.permutations',
      (∀ dep ∈ graphDeps, order.idxOf dep.1 < order.idxOf dep.2) →
      order = wholeOrder (order.filter (· ∈ resolveTasks)) := by
    decide +kernel
  exact hall order hmem hrespects

/-! ## Fetching a page -/

/-- `dso_psirp_build_graph`; `compiles` says whether `dso_compile` answers `DSO_OK`. Of the context
only the page name is set. -/
def dsoPsirpBuildGraph (ctx : DsoPsirpCtx ν) (pageName : PsirpName) (compiles : Bool) :
    Bool × DsoPsirpCtx ν :=
  if ctx.hasDso then (compiles, { ctx with pageName := pageName }) else (false, ctx)

/-- A call of `dso_psirp_fetch_page`, with what the runtime does in it. -/
structure PageCall where
  /-- the page asked for -/
  page : PsirpName
  /-- `dso_compile` answers `DSO_OK` -/
  compiles : Bool
  /-- the order the tasks run in -/
  schedule : Schedule
  /-- `dso_execute` answers `DSO_OK` -/
  executes : Bool

/-- `dso_psirp_fetch_page` -/
def dsoPsirpFetchPage (node : PageNode ν) (ctx : DsoPsirpCtx ν) (call : PageCall) :
    Except PageFault (Bool × DsoPsirpCtx ν) :=
  match dsoPsirpBuildGraph ctx call.page call.compiles with
  | (false, ctx) => .ok (false, ctx)
  | (true, ctx) => (runTasks node call.schedule.order ctx).map fun ctx => (call.executes, ctx)

/-! ## The accessors -/

/-- The loop of `dso_psirp_get_css` and `dso_psirp_get_image`. -/
def getOfTypeLoop (type : DsoPsirpContentType) (index : Nat) :
    Nat → Nat → List DsoPsirpContent → Option Nat
  | _, _, [] => none
  | i, count, item :: items =>
    if item.type = type then
      if count = index then some i else getOfTypeLoop type index (i + 1) (count + 1) items
    else getOfTypeLoop type index (i + 1) count items

/-- `dso_psirp_get_html` -/
def dsoPsirpGetHtml (ctx : DsoPsirpCtx ν) : Option Nat := ctx.pageHtml

/-- `dso_psirp_get_css` -/
def dsoPsirpGetCss (ctx : DsoPsirpCtx ν) (index : Nat) : Option Nat :=
  getOfTypeLoop .css index 0 0 ctx.items

/-- `dso_psirp_get_image` -/
def dsoPsirpGetImage (ctx : DsoPsirpCtx ν) (index : Nat) : Option Nat :=
  getOfTypeLoop .image index 0 0 ctx.items

/-- The loop finds the item of the type that `index - count` others come before. -/
theorem getOfTypeLoop_eq (type : DsoPsirpContentType) (index : Nat) :
    ∀ (items : List DsoPsirpContent) (i count : Nat), count ≤ index →
      getOfTypeLoop type index i count items =
        (((items.zipIdx i).filter fun p => p.1.type = type)[index - count]?).map Prod.snd := by
  intro items
  induction items with
  | nil => exact fun _ _ _ => rfl
  | cons item items ih =>
    intro i count hle
    rw [getOfTypeLoop, List.zipIdx_cons]
    by_cases htype : item.type = type
    · rw [if_pos htype, List.filter_cons_of_pos (by simpa using htype)]
      by_cases hcount : count = index
      · rw [if_pos hcount, hcount, Nat.sub_self]
        rfl
      · have hsub : index - count = index - (count + 1) + 1 := by omega
        rw [if_neg hcount, ih _ _ (by omega), hsub, List.getElem?_cons_succ]
    · rw [if_neg htype, List.filter_cons_of_neg (by simpa using htype), ih _ _ hle]

/-- What the accessor with a type can return: the slots that hold an item of it. -/
theorem exists_getOfTypeLoop_iff {type : DsoPsirpContentType} {items : List DsoPsirpContent}
    {j : Nat} : (∃ index, getOfTypeLoop type index 0 0 items = some j) ↔
      ∃ item, items[j]? = some item ∧ item.type = type := by
  simp only [getOfTypeLoop_eq _ _ _ 0 0 (Nat.zero_le _), Nat.sub_zero, Option.map_eq_some_iff]
  constructor
  · rintro ⟨index, ⟨item, k⟩, hget, rfl⟩
    obtain ⟨hmem, htype⟩ := List.mem_filter.mp (List.mem_of_getElem? hget)
    exact ⟨item, List.mem_zipIdx_iff_getElem?.mp hmem, by simpa using htype⟩
  · rintro ⟨item, hitem, htype⟩
    have hmem : (item, j) ∈ (items.zipIdx 0).filter fun p => p.1.type = type :=
      List.mem_filter.mpr ⟨List.mem_zipIdx_iff_getElem?.mpr hitem, by simpa using htype⟩
    obtain ⟨index, hget⟩ := List.mem_iff_getElem?.mp hmem
    exact ⟨index, (item, j), hget, rfl⟩

/-- The item it returns. -/
theorem getOfTypeLoop_bind (type : DsoPsirpContentType) (items : List DsoPsirpContent)
    (index : Nat) : (getOfTypeLoop type index 0 0 items).bind (items[·]?) =
      (items.filter (·.type = type))[index]? := by
  have hfilter : items.filter (·.type = type) =
      ((items.zipIdx 0).filter fun p => p.1.type = type).map Prod.fst := by
    conv_lhs => rw [← List.zipIdx_map_fst 0 items]
    rw [List.filter_map]
    rfl
  rw [getOfTypeLoop_eq _ _ _ 0 0 (Nat.zero_le _), Nat.sub_zero, hfilter, List.getElem?_map]
  cases hget : ((items.zipIdx 0).filter fun p => p.1.type = type)[index]? with
  | none => rfl
  | some p =>
    have hmem := (List.mem_filter.mp (List.mem_of_getElem? hget)).1
    exact List.mem_zipIdx_iff_getElem?.mp hmem

end DsoBrowser
