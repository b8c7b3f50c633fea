import DsoBrowser.NextHop
import DsoBrowser.Lib.Machine

/-!
# Interest deduplication

`mesh_forward_interest` notes the nonce of every Interest that it has no content for and has not
seen yet, and drops an Interest whose nonce it has noted. The cache of nonces has 256 places and
nothing is ever taken out of it.

A nonce that is noted does not pass again. Once the cache is full, a new nonce passes as often as
it comes, and so the check does what it is for exactly as long as no such nonce comes again with
hops left (`dedupHolds_iff`).
-/

namespace DsoBrowser

open Machine

/-! ## Calls -/

/-- The arguments of a call of `mesh_forward_interest`, and what it reads from outside. -/
structure ForwardCall where
  /-- content name -/
  name : PsirpName
  /-- hops left -/
  ttl : UInt32
  /-- Interest nonce -/
  nonce : UInt64
  /-- which peer sent it -/
  fromPeer : UInt64
  /-- how long to wait -/
  timeoutMs : UInt32
  /-- clock and network -/
  env : ForwardEnv

/-- The call: what it returns, the context, and the datagrams it sends. -/
def ForwardCall.run (c : ForwardCall) (ctx : MeshCtx) :
    Option PsirpCsEntry × MeshCtx × List Datagram :=
  meshForwardInterest ctx c.name c.ttl c.nonce c.fromPeer c.timeoutMs c.env

/-- What happens to a context. -/
inductive ForwardOp where
  /-- a call of `mesh_forward_interest` -/
  | call : ForwardCall → ForwardOp
  /-- what the receiver thread and other calls do meanwhile, which is anything but to the dedup
  cache -/
  | meanwhile : MeshCtx → ForwardOp

/-- One step. -/
def forwardStep (ctx : MeshCtx) : ForwardOp → Unit × MeshCtx
  | .call c => ((), (c.run ctx).2.1)
  | .meanwhile ctx' => ((), { ctx' with interestCache := ctx.interestCache })

/-- The call gets past the content store. -/
def ForwardCall.Misses (c : ForwardCall) (ctx : MeshCtx) : Prop :=
  ctx.node.isSome = true ∧ (ctx.lookup c.name c.env.lookupNow).1.isNone = true

/-- The nonce is in the dedup cache. -/
def MeshCtx.seen (ctx : MeshCtx) (nonce : UInt64) : Bool := ctx.interestCache.any (·.nonce = nonce)

/-- The call gets past the content store and the duplicate check. -/
def ForwardCall.Passes (c : ForwardCall) (ctx : MeshCtx) : Prop :=
  c.Misses ctx ∧ ctx.seen c.nonce = false

/-- The call returns `NULL`, counts a dropped Interest and sends nothing. -/
structure ForwardCall.Dropped (c : ForwardCall) (ctx : MeshCtx) : Prop where
  /-- no content -/
  result_eq : (c.run ctx).1 = none
  /-- one more is dropped -/
  dropped_eq : (c.run ctx).2.1.interestsDropped = ctx.interestsDropped + 1
  /-- nothing is sent -/
  out_eq : (c.run ctx).2.2 = []

/-! ## One call -/

theorem ForwardCall.Misses.node {c : ForwardCall} {ctx : MeshCtx} (h : c.Misses ctx) :
    ¬ ctx.node.isNone = true := by
  rw [Option.isNone_iff_eq_none]
  exact Option.isSome_iff_ne_none.mp h.1

theorem ForwardCall.Misses.lookup_eq {c : ForwardCall} {ctx : MeshCtx} (h : c.Misses ctx) :
    ctx.lookup c.name c.env.lookupNow = (none, ctx) :=
  MeshCtx.lookup_eq_none (Option.isNone_iff_eq_none.mp h.2)

/-- A duplicate is dropped. -/
theorem ForwardCall.dropped_of_seen {c : ForwardCall} {ctx : MeshCtx} (hmiss : c.Misses ctx)
    (hseen : ctx.seen c.nonce = true) : c.Dropped ctx := by
  have hrun : c.run ctx =
      (none, { ctx with interestsDropped := ctx.interestsDropped + 1 }, []) := by
    rw [ForwardCall.run, meshForwardInterest, if_neg hmiss.node, hmiss.lookup_eq]
    exact if_pos hseen
  exact ⟨by rw [hrun], by rw [hrun], by rw [hrun]⟩

theorem interestCache_lookup (ctx : MeshCtx) (name : PsirpName) (now : UInt64) :
    (ctx.lookup name now).2.interestCache = ctx.interestCache := by
  rw [MeshCtx.lookup]
  split <;> rfl

theorem interestCache_announceHeld (ctx : MeshCtx) (name : PsirpName) :
    (ctx.announceHeld name).interestCache = ctx.interestCache := by
  rw [MeshCtx.announceHeld]
  split <;> rfl

/-- A call that does not pass leaves the cache as it is. -/
theorem ForwardCall.interestCache_of_not_passes {c : ForwardCall} {ctx : MeshCtx}
    (h : ¬ c.Passes ctx) : (c.run ctx).2.1.interestCache = ctx.interestCache := by
  rw [ForwardCall.run, meshForwardInterest]
  split
  · rfl
  · rename_i hnode
    have hcache := interestCache_lookup ctx c.name c.env.lookupNow
    split
    · rename_i entry ctx' hhit
      rw [hhit] at hcache
      exact (interestCache_announceHeld ctx' c.name).trans hcache
    · rename_i ctx' hnone
      have hmiss : c.Misses ctx := by
        refine ⟨?_, by rw [hnone]; rfl⟩
        rwa [Option.isSome_iff_ne_none, ne_eq, ← Option.isNone_iff_eq_none]
      obtain rfl : ctx = ctx' := congrArg Prod.snd (hmiss.lookup_eq.symm.trans hnone)
      have hseen : ctx.seen c.nonce = true := by
        by_contra hnew
        exact h ⟨hmiss, Bool.not_eq_true _ ▸ hnew⟩
      rw [MeshCtx.seen] at hseen
      rw [if_pos hseen]

/-- A call that passes notes its nonce, if there is room. -/
theorem ForwardCall.interestCache_of_passes {c : ForwardCall} {ctx : MeshCtx} (h : c.Passes ctx) :
    (c.run ctx).2.1.interestCache =
      (ctx.remember c.nonce c.env.cacheNow c.fromPeer).interestCache := by
  obtain ⟨hmiss, hnew⟩ := h
  rw [ForwardCall.run, meshForwardInterest, if_neg hmiss.node, hmiss.lookup_eq]
  dsimp only
  rw [if_neg (by rw [← MeshCtx.seen, hnew]; exact Bool.false_ne_true)]
  split
  · rfl
  · split
    · rfl
    · split <;> rfl
    · split <;> rfl

/-- Out of hops, a call that passes is counted as dropped. -/
theorem ForwardCall.run_of_ttl_zero {c : ForwardCall} {ctx : MeshCtx} (h : c.Passes ctx)
    (httl : c.ttl = 0) :
    c.run ctx = (none, { ctx.remember c.nonce c.env.cacheNow c.fromPeer with
      interestsDropped :=
        (ctx.remember c.nonce c.env.cacheNow c.fromPeer).interestsDropped + 1 }, []) := by
  obtain ⟨hmiss, hnew⟩ := h
  rw [ForwardCall.run, meshForwardInterest, if_neg hmiss.node, hmiss.lookup_eq]
  dsimp only
  rw [if_neg (by rw [← MeshCtx.seen, hnew]; exact Bool.false_ne_true), if_pos httl]

theorem interestsDropped_remember (ctx : MeshCtx) (nonce now fromPeer : UInt64) :
    (ctx.remember nonce now fromPeer).interestsDropped = ctx.interestsDropped := by
  rw [MeshCtx.remember]
  split <;> rfl

/-- Out of hops, a call that the content store has nothing for is dropped. -/
theorem ForwardCall.dropped_of_ttl_zero {c : ForwardCall} {ctx : MeshCtx} (hmiss : c.Misses ctx)
    (httl : c.ttl = 0) : c.Dropped ctx := by
  cases hseen : ctx.seen c.nonce with
  | true => exact c.dropped_of_seen hmiss hseen
  | false =>
    have hrun := c.run_of_ttl_zero ⟨hmiss, hseen⟩ httl
    refine ⟨by rw [hrun], ?_, by rw [hrun]⟩
    rw [hrun]
    exact congrArg (· + 1) (interestsDropped_remember ctx c.nonce c.env.cacheNow c.fromPeer)

/-- With hops left, a call that passes is not counted. -/
theorem ForwardCall.interestsDropped_of_ttl {c : ForwardCall} {ctx : MeshCtx} (h : c.Passes ctx)
    (httl : c.ttl ≠ 0) : (c.run ctx).2.1.interestsDropped = ctx.interestsDropped := by
  obtain ⟨hmiss, hnew⟩ := h
  have hkept := interestsDropped_remember ctx c.nonce c.env.cacheNow c.fromPeer
  rw [ForwardCall.run, meshForwardInterest, if_neg hmiss.node, hmiss.lookup_eq]
  dsimp only
  rw [if_neg (by rw [← MeshCtx.seen, hnew]; exact Bool.false_ne_true), if_neg httl]
  split
  · exact hkept
  · split <;> exact hkept
  · split <;> exact hkept

/-- Nothing is taken out of the cache. -/
theorem seen_of_prefix {ctx ctx' : MeshCtx} (h : ctx.interestCache <+: ctx'.interestCache)
    {nonce : UInt64} (hseen : ctx.seen nonce = true) : ctx'.seen nonce = true := by
  obtain ⟨entry, hentry, hnonce⟩ := List.any_eq_true.mp hseen
  exact List.any_eq_true.mpr ⟨entry, h.subset hentry, hnonce⟩

theorem interestCache_prefix_remember (ctx : MeshCtx) (nonce now fromPeer : UInt64) :
    ctx.interestCache <+: (ctx.remember nonce now fromPeer).interestCache := by
  rw [MeshCtx.remember]
  split
  · exact List.prefix_append _ _
  · exact List.prefix_rfl

theorem interestCache_prefix_step (ctx : MeshCtx) (op : ForwardOp) :
    ctx.interestCache <+: (forwardStep ctx op).2.interestCache := by
  cases op with
  | meanwhile ctx' => exact List.prefix_rfl
  | call c =>
    by_cases hpass : c.Passes ctx
    · rw [forwardStep, c.interestCache_of_passes hpass]
      exact interestCache_prefix_remember ctx c.nonce c.env.cacheNow c.fromPeer
    · rw [forwardStep, c.interestCache_of_not_passes hpass]

/-- Nor does anything go into a full one. -/
theorem interestCache_step_of_full {ctx : MeshCtx}
    (hfull : meshInterestCacheSize ≤ ctx.interestCache.length) (op : ForwardOp) :
    (forwardStep ctx op).2.interestCache = ctx.interestCache := by
  cases op with
  | meanwhile ctx' => rfl
  | call c =>
    by_cases hpass : c.Passes ctx
    · rw [forwardStep, c.interestCache_of_passes hpass, MeshCtx.remember,
        if_neg (Nat.not_lt.mpr hfull)]
    · rw [forwardStep, c.interestCache_of_not_passes hpass]

/-- A call that passes while there is room has its nonce noted. -/
theorem ForwardCall.seen_of_passes {c : ForwardCall} {ctx : MeshCtx} (h : c.Passes ctx)
    (hroom : ctx.interestCache.length < meshInterestCacheSize) :
    (c.run ctx).2.1.seen c.nonce = true := by
  rw [MeshCtx.seen, c.interestCache_of_passes h, MeshCtx.remember, if_pos hroom]
  simp

/-! ## Runs -/

theorem seen_exec {ctx : MeshCtx} {nonce : UInt64} (hseen : ctx.seen nonce = true)
    (ops : List ForwardOp) : (exec forwardStep ctx ops).seen nonce = true :=
  exec_inv (I := fun ctx => ctx.seen nonce = true) (P := fun _ _ => True)
    (fun ctx op h _ => seen_of_prefix (interestCache_prefix_step ctx op) h) hseen
    (along_input.mpr fun _ _ => trivial)

theorem interestCache_exec_of_full {ctx : MeshCtx}
    (hfull : meshInterestCacheSize ≤ ctx.interestCache.length) (ops : List ForwardOp) :
    (exec forwardStep ctx ops).interestCache = ctx.interestCache :=
  exec_inv (I := fun (s : MeshCtx) => s.interestCache = ctx.interestCache) (P := fun _ _ => True)
    (fun _ op h _ => (interestCache_step_of_full (h ▸ hfull) op).trans h) rfl
    (along_input.mpr fun _ _ => trivial)

/-- Whenever a call of the run passes, each later call with the same nonce that the content store
has nothing for is dropped. -/
def DedupHolds (ctx : MeshCtx) (ops : List ForwardOp) : Prop :=
  ∀ before c between c' rest, ops = before ++ .call c :: (between ++ .call c' :: rest) →
    c'.nonce = c.nonce → c.Passes (exec forwardStep ctx before) →
    c'.Misses (exec forwardStep ctx (before ++ .call c :: between)) →
    c'.Dropped (exec forwardStep ctx (before ++ .call c :: between))

/-- No nonce that passes while the cache is full comes again with hops left, in an Interest that the
content store has nothing for. -/
def NoneReturns (ctx : MeshCtx) (ops : List ForwardOp) : Prop :=
  ∀ before c between c' rest, ops = before ++ .call c :: (between ++ .call c' :: rest) →
    c'.nonce = c.nonce → c.Passes (exec forwardStep ctx before) →
    meshInterestCacheSize ≤ (exec forwardStep ctx before).interestCache.length →
    c'.Misses (exec forwardStep ctx (before ++ .call c :: between)) → c'.ttl = 0

/-- **No Interest is forwarded twice exactly in the runs in which no nonce that was too many comes
again.** -/
theorem dedupHolds_iff (ctx : MeshCtx) (ops : List ForwardOp) :
    DedupHolds ctx ops ↔ NoneReturns ctx ops := by
  constructor
  · intro h before c between c' rest hcut hnonce hpass hfull hmiss
    by_contra httl
    -- the nonce has not been noted since, so the Interest passes again
    have hpass' : c'.Passes (exec forwardStep ctx (before ++ .call c :: between)) := by
      refine ⟨hmiss, ?_⟩
      rw [hnonce, exec_append, MeshCtx.seen, interestCache_exec_of_full hfull]
      exact hpass.2
    have hdropped := (h before c between c' rest hcut hnonce hpass hmiss).dropped_eq
    rw [c'.interestsDropped_of_ttl hpass' httl] at hdropped
    exact absurd hdropped (by grind)
  · rintro h before c between c' rest rfl hnonce hpass hmiss
    by_cases hroom : (exec forwardStep ctx before).interestCache.length < meshInterestCacheSize
    · apply c'.dropped_of_seen hmiss
      rw [hnonce, exec_append]
      exact seen_exec (c.seen_of_passes hpass hroom) between
    · have httl := h before c between c' rest rfl hnonce hpass (Nat.not_lt.mp hroom) hmiss
      exact c'.dropped_of_ttl_zero hmiss httl

/-- An Interest for `/x` that the context `ctxX [⟨1, 1⟩]` forwards if `ttl` is not `0`. -/
def callX (ttl : UInt32) (nonce : UInt64) : ForwardCall := ⟨nameX, ttl, nonce, 0, 100, envX⟩

/-- Interests out of hops, with the nonces below `n`. -/
def outOfHops (n : Nat) : List ForwardOp :=
  (List.range n).map fun i => .call (callX 0 (UInt64.ofNat i))

/-- The context they lead to, where `n` nonces fit. -/
def ctxAfter (n : Nat) : MeshCtx :=
  { ctxX [⟨1, 1⟩] with
    interestCache := (List.range n).map fun i => ⟨UInt64.ofNat i, 0, 0⟩
    interestsDropped := UInt64.ofNat n }

theorem passes_ctxAfter (ttl : UInt32) {n : Nat} (hn : n ≤ meshInterestCacheSize) :
    (callX ttl (UInt64.ofNat n)).Passes (ctxAfter n) := by
  refine ⟨⟨rfl, rfl⟩, ?_⟩
  rw [MeshCtx.seen, List.any_eq_false]
  intro entry hentry
  obtain ⟨i, hi, rfl⟩ := List.mem_map.mp hentry
  have hlt := List.mem_range.mp hi
  have hsize : meshInterestCacheSize < UInt64.size := by decide
  rw [decide_eq_true_eq]
  intro heq
  have hnat := congrArg UInt64.toNat heq
  rw [UInt64.toNat_ofNat_of_lt' (by omega)] at hnat
  change i = (UInt64.ofNat n).toNat at hnat
  rw [UInt64.toNat_ofNat_of_lt' (by omega)] at hnat
  omega

theorem exec_outOfHops {n : Nat} (hn : n ≤ meshInterestCacheSize) :
    exec forwardStep (ctxX [⟨1, 1⟩]) (outOfHops n) = ctxAfter n := by
  induction n with
  | zero => rfl
  | succ n ih =>
    have hpass := passes_ctxAfter 0 (Nat.le_of_succ_le hn)
    have hroom : (ctxAfter n).interestCache.length < meshInterestCacheSize := by
      rw [ctxAfter, List.length_map, List.length_range]
      exact hn
    rw [outOfHops, List.range_succ, List.map_append, exec_append, ← outOfHops,
      ih (Nat.le_of_succ_le hn)]
    change ((callX 0 (UInt64.ofNat n)).run (ctxAfter n)).2.1 = ctxAfter (n + 1)
    rw [ForwardCall.run_of_ttl_zero hpass rfl, MeshCtx.remember, if_pos hroom, ctxAfter, ctxAfter,
      List.range_succ, List.map_append, UInt64.ofNat_add]
    rfl

/-- With the cache full, the Interest with the next nonce is sent to the peer as often as it
comes. -/
theorem not_dedupHolds_x :
    ¬ DedupHolds (ctxX [⟨1, 1⟩])
      (outOfHops 256 ++ [.call (callX 16 256), .call (callX 16 256)]) := by
  intro h
  have hfull : exec forwardStep (ctxX [⟨1, 1⟩]) (outOfHops 256) = ctxAfter 256 :=
    exec_outOfHops le_rfl
  have hcut : outOfHops 256 ++ [.call (callX 16 256), .call (callX 16 256)] =
      outOfHops 256 ++ .call (callX 16 256) :: ([] ++ .call (callX 16 256) :: []) := by
    rw [List.nil_append]
  have hdrop := h _ _ _ _ _ hcut rfl
  rw [exec_append, hfull] at hdrop
  have hmiss : (callX 16 256).Misses
      (exec forwardStep (ctxAfter 256) [.call (callX 16 256)]) :=
    ⟨by decide +kernel, by decide +kernel⟩
  have hsent : ((callX 16 256).run
      (exec forwardStep (ctxAfter 256) [.call (callX 16 256)])).2.2 ≠ [] := by
    decide +kernel
  exact hsent (hdrop (passes_ctxAfter 16 le_rfl) hmiss).out_eq

end DsoBrowser
