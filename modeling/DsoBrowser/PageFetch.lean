import DsoBrowser.PageRequests
import DsoBrowser.Lib.Machine

/-!
# What a page fetch returns

`dso_psirp_build_graph` sets the page name and nothing else, so the items, the main page and the
parser's result of one page are still there when the next one is fetched, and what they point at may
have been freed. What the accessors show after a call is that page's own content exactly when
nothing was left that they could show instead and the call's fetches free nothing that they show
(`Clean`). This is settled call by call in every run (`along_ownPage_iff`). The **invariant** is
`PageInv`: a context without a main page has no parsed resources.
-/

namespace DsoBrowser

open Machine

universe u

variable {ν : Type u} {node : PageNode ν}

/-! ## One call -/

/-- What the call gets for its page, if that is of HTML type. -/
def htmlAnswer (node : PageNode ν) (ctx : DsoPsirpCtx ν) (page : PsirpName) :
    Option FetchedEntry :=
  (node.fetch ctx.net page).1.filter fun entry => dsoPsirpDetectType entry.name = .html

/-- The fetch takes the page for the main page. -/
def takenPage (node : PageNode ν) (ctx : DsoPsirpCtx ν) (page : PsirpName) :
    Option FetchedEntry :=
  if ctx.items.length < dsoPsirpMaxItems then htmlAnswer node ctx page else none

/-- The item that the parser is given. -/
def parsedItem (node : PageNode ν) (ctx : DsoPsirpCtx ν) (page : PsirpName) :
    Option DsoPsirpContent :=
  match takenPage node ctx page with
  | some entry => some (fetchedItem entry .html)
  | none => ctx.page

/-- The context after the fetching task. -/
structure AfterFetch (node : PageNode ν) (ctx : DsoPsirpCtx ν) (page : PsirpName)
    (ctx' : DsoPsirpCtx ν) : Prop where
  net : ctx'.net = (node.fetch ctx.net page).2
  pageName : ctx'.pageName = page
  htmlResult : ctx'.htmlResult = ctx.htmlResult
  taken : ∀ entry, takenPage node ctx page = some entry →
    ctx'.items = ctx.items ++ [fetchedItem entry .html] ∧ ctx'.pageHtml = some ctx.items.length
  notTaken : takenPage node ctx page = none → ctx'.pageHtml = ctx.pageHtml ∧
    ∃ added, ctx'.items = ctx.items ++ added ∧ ∀ item, item ∈ added ↔
      ctx.items.length < dsoPsirpMaxItems ∧ ∃ entry, (node.fetch ctx.net page).1 = some entry ∧
        item = fetchedItem entry (dsoPsirpDetectType entry.name)

variable (node) in
theorem afterFetch (ctx : DsoPsirpCtx ν) (page : PsirpName) :
    AfterFetch node ctx page (dsoPsirpTaskFetch node { ctx with pageName := page }) := by
  rcases hanswer : node.fetch ctx.net page with ⟨_ | entry, net⟩
  · have hnone : takenPage node ctx page = none := by simp [takenPage, htmlAnswer, hanswer]
    simp only [dsoPsirpTaskFetch, hanswer]
    exact ⟨by rw [hanswer], rfl, rfl, fun _ h => (nomatch hnone.symm.trans h),
      fun _ => ⟨rfl, [], (List.append_nil _).symm, by simp [hanswer]⟩⟩
  · simp only [dsoPsirpTaskFetch, hanswer]
    by_cases hroom : ctx.items.length < dsoPsirpMaxItems
    · rw [if_pos hroom]
      by_cases hhtml : dsoPsirpDetectType entry.name = .html
      · have htaken : takenPage node ctx page = some entry := by
          simp [takenPage, htmlAnswer, hanswer, hroom, hhtml]
        refine ⟨by rw [hanswer], rfl, rfl, fun e he => ?_, fun h => (nomatch htaken.symm.trans h)⟩
        obtain rfl : entry = e := Option.some.inj (htaken.symm.trans he)
        exact ⟨by rw [hhtml], if_pos hhtml⟩
      · have hnone : takenPage node ctx page = none := by
          simp [takenPage, htmlAnswer, hanswer, hhtml]
        refine ⟨by rw [hanswer], rfl, rfl, fun _ h => (nomatch hnone.symm.trans h),
          fun _ => ⟨if_neg hhtml, _, rfl, ?_⟩⟩
        simp [hanswer, hroom]
    · have hnone : takenPage node ctx page = none := if_neg hroom
      rw [if_neg hroom]
      exact ⟨by rw [hanswer], rfl, rfl, fun _ h => (nomatch hnone.symm.trans h),
        fun _ => ⟨rfl, [], (List.append_nil _).symm, by simp [hroom]⟩⟩

/-- **The invariant.** A context without a main page has no parsed resources, and the main page is
an item. -/
structure PageInv (ctx : DsoPsirpCtx ν) : Prop where
  resources : ctx.pageHtml = none → ctx.htmlResult.resources = []
  valid : ∀ j, ctx.pageHtml = some j → j < ctx.items.length

theorem AfterFetch.page {ctx ctx' : DsoPsirpCtx ν} {page : PsirpName}
    (h : AfterFetch node ctx page ctx') (hinv : PageInv ctx) :
    ctx'.page = parsedItem node ctx page := by
  rw [parsedItem]
  cases htaken : takenPage node ctx page with
  | some entry =>
    obtain ⟨hitems, hpage⟩ := h.taken entry htaken
    rw [DsoPsirpCtx.page, hpage, Option.bind_some, hitems, List.getElem?_concat_length]
  | none =>
    obtain ⟨hpage, added, hitems, -⟩ := h.notTaken htaken
    rw [DsoPsirpCtx.page, DsoPsirpCtx.page, hpage]
    cases hj : ctx.pageHtml with
    | none => rfl
    | some j =>
      rw [Option.bind_some, Option.bind_some, hitems, List.getElem?_append_left (hinv.valid j hj)]

theorem AfterFetch.bytesOf {ctx ctx' : DsoPsirpCtx ν} {page : PsirpName}
    (h : AfterFetch node ctx page ctx') : ctx'.bytesOf = ctx.bytesOf := by
  funext item
  rw [DsoPsirpCtx.bytesOf, DsoPsirpCtx.bytesOf, h.htmlResult]

/-- What the item holds is parsed as the page. -/
def parseOf (ctx : DsoPsirpCtx ν) (page : PsirpName) (item : DsoPsirpContent) :
    Except HtmlFault HtmlParseResult :=
  htmlParse (ctx.bytesOf item) (ctx.bytesOf item).length (some (pageBase page))

/-- The page that the call parses has not been freed, and can be parsed. -/
def ParsesPage (node : PageNode ν) (ctx : DsoPsirpCtx ν) (page : PsirpName) : Prop :=
  ∀ item, parsedItem node ctx page = some item →
    node.dangles (node.fetch ctx.net page).2 item = false ∧
      ∃ result, parseOf ctx page item = .ok result

/-- The context after the parsing task. -/
structure AfterParse (node : PageNode ν) (ctx : DsoPsirpCtx ν) (page : PsirpName)
    (ctx₁ ctx₂ : DsoPsirpCtx ν) : Prop where
  net : ctx₂.net = ctx₁.net
  items : ctx₂.items = ctx₁.items
  pageHtml : ctx₂.pageHtml = ctx₁.pageHtml
  parsed : ∀ item, parsedItem node ctx page = some item →
    parseOf ctx page item = .ok ctx₂.htmlResult
  unparsed : parsedItem node ctx page = none → ctx₂.htmlResult = ctx.htmlResult

/-- The page is parsed if it can be, and else goes wrong. -/
theorem AfterFetch.parse {ctx ctx₁ : DsoPsirpCtx ν} {page : PsirpName}
    (h : AfterFetch node ctx page ctx₁) (hinv : PageInv ctx) :
    (ParsesPage node ctx page → ∃ ctx₂, dsoPsirpTaskParse node ctx₁ = .ok ctx₂ ∧
      AfterParse node ctx page ctx₁ ctx₂) ∧
    (¬ ParsesPage node ctx page → ∃ f, dsoPsirpTaskParse node ctx₁ = .error f) := by
  rw [dsoPsirpTaskParse, h.page hinv, h.net, h.bytesOf, h.pageName, ParsesPage]
  cases hitem : parsedItem node ctx page with
  | none =>
    refine ⟨fun _ => ⟨ctx₁, rfl, rfl, rfl, rfl, ?_, fun _ => h.htmlResult⟩, fun hno => ?_⟩
    · rw [hitem]
      exact nofun
    · exact absurd (fun _ he => nomatch he) hno
  | some item =>
    dsimp only
    cases hdangles : node.dangles (node.fetch ctx.net page).2 item with
    | true =>
      refine ⟨fun hparses => ?_, fun _ => ⟨_, rfl⟩⟩
      exact nomatch hdangles.symm.trans (hparses item rfl).1
    | false =>
      rw [if_neg Bool.false_ne_true]
      cases hresult : htmlParse (ctx.bytesOf item) (ctx.bytesOf item).length
          (some (pageBase page)) with
      | error f =>
        refine ⟨fun hparses => ?_, fun _ => ⟨_, rfl⟩⟩
        obtain ⟨-, result, hok⟩ := hparses item rfl
        exact nomatch hresult.symm.trans hok
      | ok result =>
        refine ⟨fun _ => ⟨_, rfl, h.net.symm, rfl, rfl, fun item' he => ?_, fun he => ?_⟩,
          fun hno => ?_⟩
        · obtain rfl : item = item' := Option.some.inj (hitem.symm.trans he)
          exact hresult
        · exact nomatch hitem.symm.trans he
        · refine absurd (fun item' he => ?_) hno
          obtain rfl : item = item' := Option.some.inj he
          exact ⟨hdangles, result, hresult⟩

/-- The items were made of the resources that the context now has. -/
def AllMade (node : PageNode ν) (ctx : DsoPsirpCtx ν) (items : List DsoPsirpContent) : Prop :=
  ∀ item ∈ items, ∃ res ∈ ctx.htmlResult.resources, Made node res item

/-- The context that a call which runs its tasks ends with. -/
structure AfterTasks (node : PageNode ν) (ctx : DsoPsirpCtx ν) (page : PsirpName)
    (schedule : Schedule) (ctx' : DsoPsirpCtx ν) : Prop where
  parsed : ∀ item, parsedItem node ctx page = some item →
    parseOf ctx page item = .ok ctx'.htmlResult
  unparsed : parsedItem node ctx page = none → ctx'.htmlResult = ctx.htmlResult
  taken : ∀ entry, takenPage node ctx page = some entry → ctx'.pageHtml = some ctx.items.length ∧
    (∃ added, ctx'.items = ctx.items ++ fetchedItem entry .html :: added ∧
      AllMade node ctx' added) ∧
    ∃ ctx₂ : DsoPsirpCtx ν, ctx₂.net = (node.fetch ctx.net page).2 ∧
      ctx₂.items = ctx.items ++ [fetchedItem entry .html] ∧
      ctx' = serveAll node (requestsOf schedule.resolves ctx'.htmlResult.resources) ctx₂
  notTaken : takenPage node ctx page = none → ctx'.pageHtml = ctx.pageHtml ∧
    ∃ own added, ctx'.items = ctx.items ++ (own ++ added) ∧ AllMade node ctx' added ∧
      ∀ item, item ∈ own ↔ ctx.items.length < dsoPsirpMaxItems ∧
        ∃ entry, (node.fetch ctx.net page).1 = some entry ∧
          item = fetchedItem entry (dsoPsirpDetectType entry.name)

/-- The tasks after the fetch, in one step. -/
theorem AfterParse.serve {ctx ctx₁ ctx₂ : DsoPsirpCtx ν} {page : PsirpName}
    (hparse : AfterParse node ctx page ctx₁ ctx₂) (hfetch : AfterFetch node ctx page ctx₁)
    (schedule : Schedule) : AfterTasks node ctx page schedule
      (serveAll node (requestsOf schedule.resolves ctx₂.htmlResult.resources) ctx₂) := by
  have hres : Resolved node ctx₂
      (serveAll node (requestsOf schedule.resolves ctx₂.htmlResult.resources) ctx₂) :=
    resolved_requestsOf schedule.resolves ctx₂
  generalize hend :
    serveAll node (requestsOf schedule.resolves ctx₂.htmlResult.resources) ctx₂ = ctx' at hres ⊢
  obtain ⟨added, hadded, hmade⟩ := hres.items
  have hall : AllMade node ctx' added := by
    rw [AllMade, hres.htmlResult]
    exact hmade
  constructor
  · rw [hres.htmlResult]
    exact hparse.parsed
  · rw [hres.htmlResult]
    exact hparse.unparsed
  · intro entry htaken
    obtain ⟨hitems, hpage⟩ := hfetch.taken entry htaken
    refine ⟨by rw [hres.pageHtml, hparse.pageHtml, hpage], ⟨added, ?_, hall⟩, ctx₂,
      hparse.net.trans hfetch.net, hparse.items.trans hitems, ?_⟩
    · rw [hadded, hparse.items, hitems, List.append_assoc, List.singleton_append]
    · rw [hres.htmlResult, hend]
  · intro htaken
    obtain ⟨hpage, own, hitems, hown⟩ := hfetch.notTaken htaken
    refine ⟨by rw [hres.pageHtml, hparse.pageHtml, hpage], own, added, ?_, hall, hown⟩
    rw [hadded, hparse.items, hitems, List.append_assoc]

variable (node) in
/-- A call that gets its graph compiled runs its tasks if the page can be parsed, and goes out of
bounds otherwise. -/
theorem dsoPsirpFetchPage_started {ctx : DsoPsirpCtx ν} (hinv : PageInv ctx) {call : PageCall}
    (hdso : ctx.hasDso = true) (hcompiles : call.compiles = true) :
    (ParsesPage node ctx call.page → ∃ ctx', AfterTasks node ctx call.page call.schedule ctx' ∧
      dsoPsirpFetchPage node ctx call = .ok (call.executes, ctx')) ∧
    (¬ ParsesPage node ctx call.page → ∃ f, dsoPsirpFetchPage node ctx call = .error f) := by
  have hfetch := afterFetch node ctx call.page
  obtain ⟨hparses, hfaults⟩ := hfetch.parse hinv
  have hrun : dsoPsirpFetchPage node ctx call =
      (dsoPsirpTaskParse node (dsoPsirpTaskFetch node { ctx with pageName := call.page }) >>=
        fun ctx₂ => runTasks node (call.schedule.resolves ++ [.render]) ctx₂).map
          (call.executes, ·) := by
    rw [dsoPsirpFetchPage, dsoPsirpBuildGraph, if_pos hdso, hcompiles, call.schedule.order_eq]
    rfl
  constructor
  · intro h
    obtain ⟨ctx₂, hok, hparse⟩ := hparses h
    refine ⟨_, hparse.serve hfetch call.schedule, ?_⟩
    have hrest := runTasks_eq node call.schedule.resolves ctx₂ call.schedule.resolves_perm.subset
    rw [runTasks] at hrest
    rw [hrun, hok]
    change (runTasks node (call.schedule.resolves ++ [.render]) ctx₂).map (call.executes, ·) = _
    rw [runTasks, List.foldlM_append, hrest]
    rfl
  · intro h
    obtain ⟨f, herror⟩ := hfaults h
    exact ⟨f, by rw [hrun, herror]; rfl⟩

theorem AfterTasks.inv {ctx ctx' : DsoPsirpCtx ν} {page : PsirpName} {schedule : Schedule}
    (hinv : PageInv ctx) (h : AfterTasks node ctx page schedule ctx') : PageInv ctx' := by
  cases htaken : takenPage node ctx page with
  | some entry =>
    obtain ⟨hpage, ⟨added, hitems, -⟩, -⟩ := h.taken entry htaken
    refine ⟨fun hnone => (nomatch hpage.symm.trans hnone), fun j hj => ?_⟩
    obtain rfl : ctx.items.length = j := Option.some.inj (hpage.symm.trans hj)
    rw [hitems, List.length_append, List.length_cons]
    omega
  | none =>
    obtain ⟨hpage, own, added, hitems, -⟩ := h.notTaken htaken
    refine ⟨fun hnone => ?_, fun j hj => ?_⟩
    · have hnone' : ctx.pageHtml = none := hpage.symm.trans hnone
      have hitem : parsedItem node ctx page = none := by
        rw [parsedItem, htaken, DsoPsirpCtx.page, hnone']
        rfl
      rw [h.unparsed hitem]
      exact hinv.resources hnone'
    · rw [hitems, List.length_append]
      exact Nat.lt_add_right _ (hinv.valid j (hpage.symm.trans hj))

/-! ## A page's own content -/

/-- An accessor returns this slot. -/
def Returned (ctx : DsoPsirpCtx ν) (j : Nat) : Prop :=
  (∃ index, dsoPsirpGetCss ctx index = some j) ∨ ∃ index, dsoPsirpGetImage ctx index = some j

theorem returned_iff {ctx : DsoPsirpCtx ν} {j : Nat} :
    Returned ctx j ↔ ∃ item, ctx.items[j]? = some item ∧ Shown item.type := by
  rw [Returned]
  simp only [dsoPsirpGetCss, dsoPsirpGetImage, exists_getOfTypeLoop_iff, Shown, ← exists_or,
    ← and_or_left]

/-- **What the accessors show after the call is the page's own content**: the main page is the item
that this call made of the page, if it was fetched as HTML, and every item of a style sheet or an
image was added by this call, for a resource that its parse of the page found. The data of each is
still there. -/
structure OwnContent (node : PageNode ν) (ctx : DsoPsirpCtx ν) (page : PsirpName)
    (ctx' : DsoPsirpCtx ν) : Prop where
  fetched : ∀ entry, htmlAnswer node ctx page = some entry →
    ∃ j, dsoPsirpGetHtml ctx' = some j ∧ ctx.items.length ≤ j ∧
      ctx'.items[j]? = some (fetchedItem entry .html) ∧
      node.dangles ctx'.net (fetchedItem entry .html) = false
  notFetched : htmlAnswer node ctx page = none → dsoPsirpGetHtml ctx' = none
  returned : ∀ j item, Returned ctx' j → ctx'.items[j]? = some item → ctx.items.length ≤ j ∧
    node.dangles ctx'.net item = false ∧ ∃ entry, htmlAnswer node ctx page = some entry ∧
      htmlParse entry.data entry.data.length (some (pageBase page)) = .ok ctx'.htmlResult ∧
      ∃ res ∈ ctx'.htmlResult.resources, Made node res item

/-- **Nothing is left that could be shown instead**: no item of a style sheet or an image is in the
table; there is room for the page, if it comes as HTML, and there is no main page if it does not,
nor is the page itself a style sheet or an image that there is room for. And while the resources of
the page are fetched, nothing that is shown is freed. -/
structure Clean (node : PageNode ν) (ctx : DsoPsirpCtx ν) (page : PsirpName)
    (schedule : Schedule) : Prop where
  noneShown : ∀ item ∈ ctx.items, ¬ Shown item.type
  room : ∀ entry, htmlAnswer node ctx page = some entry → ctx.items.length < dsoPsirpMaxItems
  noPage : htmlAnswer node ctx page = none → ctx.pageHtml = none ∧
    ∀ entry, (node.fetch ctx.net page).1 = some entry → Shown (dsoPsirpDetectType entry.name) →
      dsoPsirpMaxItems ≤ ctx.items.length
  keeps : ∀ entry result, htmlAnswer node ctx page = some entry →
    htmlParse entry.data entry.data.length (some (pageBase page)) = .ok result →
    KeepsShown node (requestsOf schedule.resolves result.resources) (ctx.items.length + 1)
      (node.fetch ctx.net page).2 [entry.block]

theorem not_shown_html : ¬ Shown .html := by
  rintro (h | h) <;> cases h

theorem takenPage_of_room {ctx : DsoPsirpCtx ν} {page : PsirpName}
    (h : ctx.items.length < dsoPsirpMaxItems) :
    takenPage node ctx page = htmlAnswer node ctx page := if_pos h

theorem takenPage_of_none {ctx : DsoPsirpCtx ν} {page : PsirpName}
    (h : htmlAnswer node ctx page = none) : takenPage node ctx page = none := by
  rw [takenPage, h, ite_self]

/-- An item left from before is in its slot still. -/
theorem AfterTasks.getElem? {ctx ctx' : DsoPsirpCtx ν} {page : PsirpName} {schedule : Schedule}
    (h : AfterTasks node ctx page schedule ctx') {j : Nat} (hj : j < ctx.items.length) :
    ctx'.items[j]? = ctx.items[j]? := by
  cases htaken : takenPage node ctx page with
  | some entry =>
    obtain ⟨-, ⟨added, hitems, -⟩, -⟩ := h.taken entry htaken
    rw [hitems, List.getElem?_append_left hj]
  | none =>
    obtain ⟨-, own, added, hitems, -⟩ := h.notTaken htaken
    rw [hitems, List.getElem?_append_left hj]

/-- Nothing that is shown has been freed exactly if no item shown dangles. -/
theorem unfreed_iff {ctx : DsoPsirpCtx ν} {entry : FetchedEntry} :
    Unfreed node entry.block ctx ↔ node.dangles ctx.net (fetchedItem entry .html) = false ∧
      ∀ item ∈ ctx.items, Shown item.type → node.dangles ctx.net item = false := by
  rw [Unfreed, List.forall_mem_cons]
  refine and_congr Iff.rfl ⟨fun h item hitem hshown => ?_, fun h block hblock => ?_⟩
  · cases hblock : item.data.block with
    | none => rw [PageNode.dangles, hblock, Option.any_none]
    | some block =>
      rw [PageNode.dangles, hblock, Option.any_some]
      exact h block (List.mem_filterMap.mpr ⟨item, hitem, (if_pos hshown).trans hblock⟩)
  · obtain ⟨item, hitem, hsome⟩ := List.mem_filterMap.mp hblock
    rw [shownBlock] at hsome
    split at hsome
    next hshown =>
      have hdangles := h item hitem hshown
      rwa [PageNode.dangles, hsome, Option.any_some] at hdangles
    next => cases hsome

/-- What the call frees of the items that it shows, if none was shown before. -/
theorem AfterTasks.keeps_iff {ctx ctx' : DsoPsirpCtx ν} {page : PsirpName} {schedule : Schedule}
    (h : AfterTasks node ctx page schedule ctx') (hnone : ∀ item ∈ ctx.items, ¬ Shown item.type)
    {entry : FetchedEntry} (htaken : takenPage node ctx page = some entry)
    (hanswer : htmlAnswer node ctx page = some entry) :
    KeepsShown node (requestsOf schedule.resolves ctx'.htmlResult.resources)
        (ctx.items.length + 1) (node.fetch ctx.net page).2 [entry.block] ↔
      Unfreed node entry.block ctx' := by
  obtain ⟨-, -, ctx₂, hnet, hitems, hend⟩ := h.taken entry htaken
  have hblocks : ctx₂.items.filterMap shownBlock = [] := by
    rw [hitems]
    refine List.filterMap_eq_nil_iff.mpr fun item hitem => if_neg ?_
    rcases List.mem_append.mp hitem with hitem | hitem
    · exact hnone item hitem
    · rw [List.mem_singleton.mp hitem]
      exact not_shown_html
  have hlength : ctx₂.items.length = ctx.items.length + 1 := by
    rw [hitems, List.length_append, List.length_singleton]
  have hunfreed : Unfreed node entry.block ctx₂ := by
    rw [Unfreed, hblocks, hnet]
    intro block hblock
    rw [List.mem_singleton.mp hblock]
    exact node.freed_fetched (Option.eq_some_of_filter_eq_some hanswer)
  have hiff := keepsShown_iff entry.block
    (requestsOf schedule.resolves ctx'.htmlResult.resources) ctx₂ hunfreed
  rw [hblocks, hlength, hnet, ← hend] at hiff
  exact hiff

theorem OwnContent.clean {ctx ctx' : DsoPsirpCtx ν} {page : PsirpName} {schedule : Schedule}
    (hinv : PageInv ctx) (h : AfterTasks node ctx page schedule ctx')
    (hown : OwnContent node ctx page ctx') : Clean node ctx page schedule := by
  have hnone : ∀ item ∈ ctx.items, ¬ Shown item.type := by
    intro item hitem hshown
    obtain ⟨j, hj⟩ := List.mem_iff_getElem?.mp hitem
    have hlt : j < ctx.items.length := (List.getElem?_eq_some_iff.mp hj).1
    have hj' : ctx'.items[j]? = some item := (h.getElem? hlt).trans hj
    exact absurd (hown.returned j item (returned_iff.mpr ⟨item, hj', hshown⟩) hj').1
      (Nat.not_le.mpr hlt)
  have hroom : ∀ entry, htmlAnswer node ctx page = some entry →
      ctx.items.length < dsoPsirpMaxItems := by
    -- in a full table the main page is still the one from before
    intro entry hentry
    by_contra hfull
    obtain ⟨j, hget, hle, -⟩ := hown.fetched entry hentry
    obtain ⟨hpage, -⟩ := h.notTaken (if_neg hfull)
    exact absurd (hinv.valid j (hpage.symm.trans hget)) (Nat.not_lt.mpr hle)
  refine ⟨hnone, hroom, fun hno => ?_, fun entry result hentry hresult => ?_⟩
  · obtain ⟨hpage, own, added, hitems, -, hmem⟩ := h.notTaken (takenPage_of_none hno)
    refine ⟨hpage.symm.trans (hown.notFetched hno), fun entry hentry hshown => ?_⟩
    by_contra hroom
    have hitem := (hmem _).mpr ⟨Nat.not_le.mp hroom, entry, hentry, rfl⟩
    have hin : fetchedItem entry (dsoPsirpDetectType entry.name) ∈ ctx'.items := by
      rw [hitems]
      exact List.mem_append_right _ (List.mem_append_left _ hitem)
    obtain ⟨j, hj⟩ := List.mem_iff_getElem?.mp hin
    obtain ⟨-, -, e, he, -⟩ := hown.returned j _ (returned_iff.mpr ⟨_, hj, hshown⟩) hj
    exact nomatch hno.symm.trans he
  · have htaken := (takenPage_of_room (hroom entry hentry)).trans hentry
    have hparsed := h.parsed (fetchedItem entry .html) (by rw [parsedItem, htaken])
    obtain rfl : result = ctx'.htmlResult := Except.ok.inj (hresult.symm.trans hparsed)
    obtain ⟨j, -, -, -, hdangles⟩ := hown.fetched entry hentry
    refine (h.keeps_iff hnone htaken hentry).mpr (unfreed_iff.mpr ⟨hdangles, ?_⟩)
    intro item hitem hshown
    obtain ⟨j, hj⟩ := List.mem_iff_getElem?.mp hitem
    exact (hown.returned j item (returned_iff.mpr ⟨item, hj, hshown⟩) hj).2.1

theorem Clean.ownContent {ctx ctx' : DsoPsirpCtx ν} {page : PsirpName} {schedule : Schedule}
    (hinv : PageInv ctx) (h : AfterTasks node ctx page schedule ctx')
    (hclean : Clean node ctx page schedule) : OwnContent node ctx page ctx' := by
  -- what is returned was not there before
  have hnew : ∀ j item, Returned ctx' j → ctx'.items[j]? = some item → ctx.items.length ≤ j := by
    intro j item hret hj
    by_contra hlt
    obtain ⟨item', hj', hshown⟩ := returned_iff.mp hret
    rw [h.getElem? (Nat.not_le.mp hlt)] at hj'
    exact hclean.noneShown item' (List.mem_of_getElem? hj') hshown
  cases hanswer : htmlAnswer node ctx page with
  | some entry =>
    have htaken := (takenPage_of_room (hclean.room entry hanswer)).trans hanswer
    obtain ⟨hpage, ⟨added, hitems, hmade⟩, -⟩ := h.taken entry htaken
    have hparsed : htmlParse entry.data entry.data.length (some (pageBase page)) =
        .ok ctx'.htmlResult := h.parsed (fetchedItem entry .html) (by rw [parsedItem, htaken])
    obtain ⟨hpageKept, hkept⟩ := unfreed_iff.mp ((h.keeps_iff hclean.noneShown htaken hanswer).mp
      (hclean.keeps entry _ hanswer hparsed))
    have hown : ctx'.items[ctx.items.length]? = some (fetchedItem entry .html) := by
      rw [hitems, List.getElem?_append_right (Nat.le_refl _), Nat.sub_self]
      rfl
    refine ⟨fun e he => ?_, fun hnone => (nomatch hanswer.symm.trans hnone),
      fun j item hret hj => ?_⟩
    · obtain rfl : entry = e := Option.some.inj (hanswer.symm.trans he)
      exact ⟨_, hpage, Nat.le_refl _, hown, hpageKept⟩
    · have hle := hnew j item hret hj
      obtain ⟨item', hj', hshown⟩ := returned_iff.mp hret
      obtain rfl : item = item' := Option.some.inj (hj.symm.trans hj')
      refine ⟨hle, hkept item (List.mem_of_getElem? hj) hshown, entry, hanswer, hparsed,
        hmade item ?_⟩
      rw [hitems, List.getElem?_append_right hle] at hj
      cases hk : j - ctx.items.length with
      | zero =>
        -- the slot of the main page is not one that is returned
        obtain rfl : j = ctx.items.length := by omega
        rw [hown] at hj'
        obtain rfl := Option.some.inj hj'
        exact absurd hshown not_shown_html
      | succ k =>
        rw [hk, List.getElem?_cons_succ] at hj
        exact List.mem_of_getElem? hj
  | none =>
    obtain ⟨hpage, own, added, hitems, hmade, hmem⟩ := h.notTaken (takenPage_of_none hanswer)
    obtain ⟨hnoPage, hnotShown⟩ := hclean.noPage hanswer
    refine ⟨fun e he => (nomatch hanswer.symm.trans he), fun _ => hpage.trans hnoPage,
      fun j item hret hj => ?_⟩
    exfalso
    have hle := hnew j item hret hj
    obtain ⟨item', hj', hshown⟩ := returned_iff.mp hret
    rw [hitems, List.getElem?_append_right hle] at hj'
    rcases List.mem_append.mp (List.mem_of_getElem? hj') with hmem' | hmem'
    · obtain ⟨hroom, entry, hentry, rfl⟩ := (hmem _).mp hmem'
      exact absurd (hnotShown entry hentry hshown) (Nat.not_le.mpr hroom)
    · -- without a main page there are no resources to make items of
      obtain ⟨res, hres, -⟩ := hmade item' hmem'
      rw [(h.inv hinv).resources (hpage.trans hnoPage)] at hres
      cases hres

/-! ## Runs of calls -/

/-- A call on the context, unless an earlier one went out of bounds. -/
def pageStep (node : PageNode ν) (s : Except PageFault (DsoPsirpCtx ν)) (call : PageCall) :
    Bool × Except PageFault (DsoPsirpCtx ν) :=
  match s with
  | .error f => (false, .error f)
  | .ok ctx =>
    match dsoPsirpFetchPage node ctx call with
    | .error f => (false, .error f)
    | .ok (ok, ctx') => (ok, .ok ctx')

/-- **The law of a call**: it stays in bounds, and after it returned true the accessors show the
page's own content. -/
def OwnPage (node : PageNode ν) (s : Except PageFault (DsoPsirpCtx ν)) (call : PageCall) : Prop :=
  match s with
  | .error _ => True
  | .ok ctx =>
    match dsoPsirpFetchPage node ctx call with
    | .error _ => False
    | .ok (ok, ctx') => ok = true → OwnContent node ctx call.page ctx'

/-- **Its condition**: if the graph compiles, the page that is parsed can be, and if the tasks also
succeed, nothing was left that could be shown instead, and nothing that is shown is freed. -/
def StartsClean (node : PageNode ν) (s : Except PageFault (DsoPsirpCtx ν)) (call : PageCall) :
    Prop :=
  match s with
  | .error _ => True
  | .ok ctx => ctx.hasDso = true → call.compiles = true →
    ParsesPage node ctx call.page ∧ (call.executes = true → Clean node ctx call.page call.schedule)

/-- The invariant, of a context that no call has taken out of bounds. -/
def StepInv (s : Except PageFault (DsoPsirpCtx ν)) : Prop := ∀ ctx, s = .ok ctx → PageInv ctx

theorem pageInv_init (net : ν) (hasDso : Bool) : PageInv (dsoPsirpCtxInit net hasDso) :=
  ⟨fun _ => rfl, nofun⟩

/-- A call that runs no task changes at most the page name. -/
theorem dsoPsirpFetchPage_stopped {ctx : DsoPsirpCtx ν} (hinv : PageInv ctx) {call : PageCall}
    (h : ¬ (ctx.hasDso = true ∧ call.compiles = true)) :
    ∃ ctx', dsoPsirpFetchPage node ctx call = .ok (false, ctx') ∧ PageInv ctx' := by
  rw [dsoPsirpFetchPage, dsoPsirpBuildGraph]
  cases hdso : ctx.hasDso with
  | false => exact ⟨ctx, by rw [if_neg (by decide)], hinv⟩
  | true =>
    have hcompiles : call.compiles = false := by simpa [hdso] using h
    rw [hcompiles]
    exact ⟨_, rfl, hinv.resources, hinv.valid⟩

variable (node) in
/-- What a call can do. -/
theorem dsoPsirpFetchPage_cases {ctx : DsoPsirpCtx ν} (hinv : PageInv ctx) (call : PageCall) :
    (¬ (ctx.hasDso = true ∧ call.compiles = true) ∧
      ∃ ctx', dsoPsirpFetchPage node ctx call = .ok (false, ctx') ∧ PageInv ctx') ∨
    ((ctx.hasDso = true ∧ call.compiles = true) ∧ ParsesPage node ctx call.page ∧
      ∃ ctx', dsoPsirpFetchPage node ctx call = .ok (call.executes, ctx') ∧
        AfterTasks node ctx call.page call.schedule ctx') ∨
    ((ctx.hasDso = true ∧ call.compiles = true) ∧ ¬ ParsesPage node ctx call.page ∧
      ∃ f, dsoPsirpFetchPage node ctx call = .error f) := by
  by_cases hstarts : ctx.hasDso = true ∧ call.compiles = true
  · obtain ⟨hok, hfault⟩ := dsoPsirpFetchPage_started node hinv hstarts.1 hstarts.2
    by_cases hparses : ParsesPage node ctx call.page
    · obtain ⟨ctx', htasks, hrun⟩ := hok hparses
      exact .inr (.inl ⟨hstarts, hparses, ctx', hrun, htasks⟩)
    · exact .inr (.inr ⟨hstarts, hparses, hfault hparses⟩)
  · exact .inl ⟨hstarts, dsoPsirpFetchPage_stopped hinv hstarts⟩

theorem stepInv_pageStep (s : Except PageFault (DsoPsirpCtx ν)) (call : PageCall)
    (hs : StepInv s) : StepInv (pageStep node s call).2 := by
  cases s with
  | error f => exact nofun
  | ok ctx =>
    have hinv := hs ctx rfl
    rw [pageStep]
    rcases dsoPsirpFetchPage_cases node hinv call with
      ⟨-, ctx', hrun, hinv'⟩ | ⟨-, -, ctx', hrun, htasks⟩ | ⟨-, -, f, hrun⟩
    · rw [hrun]
      exact fun _ h => Except.ok.inj h ▸ hinv'
    · rw [hrun]
      exact fun _ h => Except.ok.inj h ▸ htasks.inv hinv
    · rw [hrun]
      exact nofun

theorem ownPage_iff (s : Except PageFault (DsoPsirpCtx ν)) (call : PageCall) (hs : StepInv s) :
    OwnPage node s call ↔ StartsClean node s call := by
  cases s with
  | error f => exact Iff.rfl
  | ok ctx =>
    have hinv := hs ctx rfl
    rw [OwnPage, StartsClean]
    rcases dsoPsirpFetchPage_cases node hinv call with
      ⟨hstopped, ctx', hrun, -⟩ | ⟨hstarts, hparses, ctx', hrun, htasks⟩ |
        ⟨hstarts, hparses, f, hrun⟩
    · rw [hrun]
      exact ⟨fun _ hdso hcompiles => absurd ⟨hdso, hcompiles⟩ hstopped, fun _ => nofun⟩
    · rw [hrun]
      constructor
      · intro hown _ _
        exact ⟨hparses, fun hexec => (hown hexec).clean hinv htasks⟩
      · intro hclean hexec
        exact ((hclean hstarts.1 hstarts.2).2 hexec).ownContent hinv htasks
    · rw [hrun]
      exact ⟨False.elim, fun hclean => absurd (hclean hstarts.1 hstarts.2).1 hparses⟩

/-- **Every call of a run shows its own page exactly when every one starts clean.** -/
theorem along_ownPage_iff (node : PageNode ν) (net : ν) (hasDso : Bool) (calls : List PageCall) :
    Along (pageStep node) (OwnPage node) (.ok (dsoPsirpCtxInit net hasDso)) calls ↔
      Along (pageStep node) (StartsClean node) (.ok (dsoPsirpCtxInit net hasDso)) calls :=
  along_congr stepInv_pageStep ownPage_iff
    (fun _ h => Except.ok.inj h ▸ pageInv_init net hasDso)

/-! ## A page that is not found -/

/-- A network that has one page, `/a.html`. -/
def onePageNode : PageNode Unit :=
  answering (fun name => if name.components = [text ['a', '.', 'h', 't', 'm', 'l']] then
    some ⟨newEntry name (text ['h', 'i']).bytes 0 0, 0⟩ else none) fun net _ => net

/-- A call for the page at a path, in which the runtime succeeds. -/
def callFor (path : CString) : PageCall :=
  ⟨(psirpNameInit path).2, true, .of resolveTasks (.refl _), true⟩

/-- After `/a.html` was fetched and `/b` was not found, `dso_psirp_get_html` still returns
`/a.html`. -/
theorem not_along_ownPage_notFound :
    ¬ Along (pageStep onePageNode) (OwnPage onePageNode) (.ok (dsoPsirpCtxInit () true))
      [callFor (text ['/', 'a', '.', 'h', 't', 'm', 'l']), callFor (text ['/', 'b'])] := by
  rintro ⟨-, hown, -⟩
  have hstale : ∃ ctx ctx', (pageStep onePageNode (.ok (dsoPsirpCtxInit () true))
        (callFor (text ['/', 'a', '.', 'h', 't', 'm', 'l']))).2 = .ok ctx ∧
      dsoPsirpFetchPage onePageNode ctx (callFor (text ['/', 'b'])) = .ok (true, ctx') ∧
      htmlAnswer onePageNode ctx (callFor (text ['/', 'b'])).page = none ∧
      dsoPsirpGetHtml ctx' = some 0 := ⟨_, _, rfl, rfl, rfl, rfl⟩
  obtain ⟨ctx, ctx', hctx, hrun, hnone, hhtml⟩ := hstale
  rw [hctx, OwnPage, hrun] at hown
  exact nomatch hhtml.symm.trans ((hown rfl).notFetched hnone)

end DsoBrowser
