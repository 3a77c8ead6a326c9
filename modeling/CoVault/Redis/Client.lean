import Mathlib

/-!
# The client of the key-value store

A command whose reply does not come is lost, and the context remembers why. After an I/O error
both `get` and `set` reconnect; only `get` then sends its command again. The server asks for no
password, so a new connection can do what the old one could.
-/

namespace CoVault.Redis

abbrev Bytes := List UInt8

/-- `m_ctx->err`, where `1` is `io`. -/
inductive Err where
  | io | other | eof | protocol | oom | timeout
deriving DecidableEq

/-- What happens to a command. -/
inductive Delivery where
  | answered
  | lost (err : Err)

/-- What comes of an attempt to connect again. -/
inductive Reconnection where
  | ok
  | failed (err : Err)

/-- The server and what the context says. -/
structure World where
  server : Bytes → Option Bytes
  err : Option Err

/-- What the network does to one call. -/
structure Network where
  first : Delivery
  reconnection : Reconnection
  second : Delivery

/-! ## The library -/

/-- The error behind a null reply. Nothing is sent in a context that has seen an error. -/
def World.failure (w : World) : Delivery → Option Err
  | .answered => w.err
  | .lost err => some (w.err.getD err)

/-- `redisCommand` with `GET`; the server answers nil for a key that it does not hold. -/
def redisGet (w : World) (key : Bytes) (sent : Delivery) : Option (Option Bytes) × World :=
  match w.failure sent with
  | none => (some (w.server key), w)
  | some err => (none, { w with err := some err })

/-- `redisCommand` with `SET`, and whether there is a reply. -/
def redisSet (w : World) (key data : Bytes) (sent : Delivery) : Bool × World :=
  match w.failure sent with
  | none => (true, { w with server := Function.update w.server key (some data) })
  | some err => (false, { w with err := some err })

def redisReconnect (w : World) : Reconnection → Bool × World
  | .ok => (true, { w with err := none })
  | .failed err => (false, { w with err := some err })

/-! ## The client -/

def tryHandleError (w : World) (reconnection : Reconnection) : Bool × World :=
  if w.err = some .io then
    match redisReconnect w reconnection with
    | (true, w) => (true, w)
    | (false, w) => (w.err.isNone, w)
  else (w.err.isNone, w)

/-- The value, unless the process exits. -/
def get (w : World) (key : Bytes) (net : Network) : Option (Option Bytes × World) :=
  match redisGet w key net.first with
  | (some value, w) => some (value, w)
  | (none, w) =>
    match tryHandleError w net.reconnection with
    | (false, _) => none
    | (true, w) =>
      match redisGet w key net.second with
      | (some value, w) => some (value, w)
      | (none, _) => none

/-- Without a reply it returns what `try_handle_error` does, and sends nothing again. -/
def set (w : World) (key data : Bytes) (net : Network) : Bool × World :=
  match redisSet w key data net.first with
  | (true, w) => (true, w)
  | (false, w) => tryHandleError w net.reconnection

inductive Call where
  | get (key : Bytes) (net : Network)
  | set (key data : Bytes) (net : Network)

/-- Whether the call is one of `set` with this key. -/
def Call.Sets (key : Bytes) : Call → Prop
  | get .. => False
  | set key' .. => key' = key

def Call.run (w : World) : Call → Option World
  | get key net => (Redis.get w key net).map Prod.snd
  | set key data net => some (Redis.set w key data net).2

/-- The calls of a process, as long as it does not exit. -/
def run (w : World) (calls : List Call) : Option World := calls.foldlM Call.run w

/-! ## What the client promises -/

/-- What `set` has returned `true` for is what a later `get` returns, unless the key has been
set again. -/
def Durable (w : World) (calls : List Call) : Prop :=
  ∀ pre key data net mid net' post,
    calls = pre ++ .set key data net :: (mid ++ .get key net' :: post) →
    ∀ w₁, run w pre = some w₁ → (set w₁ key data net).1 = true →
    (∀ c ∈ mid, ¬ c.Sets key) → ∀ w₂, run (set w₁ key data net).2 mid = some w₂ →
    ∀ value w₃, get w₂ key net' = some (value, w₃) → value = some data

/-- The command is lost to an I/O error, and then the connection is there again. -/
def Swallowed (w : World) (net : Network) : Prop :=
  w.failure net.first = some .io ∧ net.reconnection = .ok

/-- No command of a `set` is swallowed, or the server holds the same value already. -/
def NoneSwallowed (w : World) (calls : List Call) : Prop :=
  ∀ pre key data net, pre ++ [.set key data net] <+: calls → ∀ w', run w pre = some w' →
    Swallowed w' net → w'.server key = some data

/-! ## What it does -/

theorem tryHandleError_server (w : World) (reconnection : Reconnection) :
    (tryHandleError w reconnection).2.server = w.server := by
  rw [tryHandleError]
  cases reconnection <;> split_ifs <;> rfl

/-- After an error the client goes on if it was one of I/O and the connection is there again. -/
theorem tryHandleError_iff {w : World} {err : Err} (h : w.err = some err)
    (reconnection : Reconnection) : (tryHandleError w reconnection).1 = true ↔
      err = .io ∧ reconnection = .ok := by
  rw [tryHandleError, h]
  cases reconnection <;> by_cases herr : err = .io <;> simp [herr, redisReconnect]

theorem redisGet_spec {w w' : World} {key : Bytes} {sent : Delivery} {reply : Option (Option Bytes)}
    (h : redisGet w key sent = (reply, w')) :
    w'.server = w.server ∧ ∀ value, reply = some value → value = w.server key := by
  rw [redisGet] at h
  cases hsent : w.failure sent with
  | none =>
    rw [hsent] at h
    obtain ⟨rfl, rfl⟩ := Prod.mk.inj h
    exact ⟨rfl, fun value hvalue => (Option.some.inj hvalue).symm⟩
  | some err =>
    rw [hsent] at h
    obtain ⟨rfl, rfl⟩ := Prod.mk.inj h
    exact ⟨rfl, fun value hvalue => by cases hvalue⟩

/-- A `get` that returns tells what the server holds, and changes nothing there. -/
theorem get_spec {w w' : World} {key : Bytes} {net : Network} {value : Option Bytes}
    (h : get w key net = some (value, w')) : value = w.server key ∧ w'.server = w.server := by
  obtain ⟨⟨reply, w₁⟩, hfirst⟩ : ∃ p, redisGet w key net.first = p := ⟨_, rfl⟩
  obtain ⟨hserver, hreply⟩ := redisGet_spec hfirst
  rw [get, hfirst] at h
  cases reply with
  | some v =>
    obtain ⟨rfl, rfl⟩ := Prod.mk.inj (Option.some.inj h)
    exact ⟨hreply v rfl, hserver⟩
  | none =>
    obtain ⟨⟨handled, w₂⟩, htry⟩ : ∃ p, tryHandleError w₁ net.reconnection = p := ⟨_, rfl⟩
    have hserver' := tryHandleError_server w₁ net.reconnection
    rw [htry] at hserver'
    obtain ⟨⟨reply, w₃⟩, hsecond⟩ : ∃ p, redisGet w₂ key net.second = p := ⟨_, rfl⟩
    obtain ⟨hserver'', hreply'⟩ := redisGet_spec hsecond
    cases handled with
    | false => simp [htry] at h
    | true =>
      simp only [htry, hsecond] at h
      cases reply with
      | none => cases h
      | some v =>
        obtain ⟨rfl, rfl⟩ := Prod.mk.inj (Option.some.inj h)
        have hsame : w₂.server = w.server := hserver'.trans hserver
        exact ⟨by rw [hreply' v rfl, hsame], hserver''.trans hsame⟩

/-- A `get` whose first command is answered returns. -/
theorem get_answered {w : World} (h : w.err = none) (key : Bytes) (net : Network)
    (hnet : net.first = .answered) : get w key net = some (w.server key, w) := by
  have hsent : w.failure net.first = none := by rw [hnet]; exact h
  rw [get, redisGet, hsent]

/-- A `set` that returns `true` has stored its value, or its command has been swallowed. -/
theorem set_spec (w : World) (key data : Bytes) (net : Network) :
    (set w key data net).2.server = Function.update w.server key (some data) ∨
      (set w key data net).2.server = w.server ∧
        ((set w key data net).1 = true ↔ Swallowed w net) := by
  rw [set, redisSet]
  cases hsent : w.failure net.first with
  | none => exact .inl rfl
  | some err =>
    refine .inr ⟨tryHandleError_server _ _, ?_⟩
    rw [Swallowed, hsent, Option.some.injEq]
    exact tryHandleError_iff rfl net.reconnection

/-- After a swallowed command the connection is there, and nothing has changed. -/
theorem set_swallowed {w : World} {net : Network} (h : Swallowed w net) (key data : Bytes) :
    set w key data net = (true, { w with err := none }) := by
  rw [set, redisSet, h.1, h.2]
  rfl

/-- The value of a key survives calls that do not set it. -/
theorem run_server {key : Bytes} {calls : List Call} (h : ∀ c ∈ calls, ¬ c.Sets key) :
    ∀ {w w' : World}, run w calls = some w' → w'.server key = w.server key := by
  induction calls with
  | nil =>
    intro w w' hrun
    rw [← Option.some.inj hrun]
  | cons c calls ih =>
    intro w w' hrun
    rw [run, List.foldlM_cons] at hrun
    obtain ⟨u, hu, hrest⟩ := Option.bind_eq_some_iff.mp hrun
    rw [ih (fun d hd => h d (List.mem_cons_of_mem c hd)) hrest]
    cases c with
    | get key' net =>
      obtain ⟨⟨value, u'⟩, hget, rfl⟩ := Option.map_eq_some_iff.mp hu
      rw [(get_spec hget).2]
    | set key' data net =>
      obtain rfl := Option.some.inj hu
      have hne : key' ≠ key := h _ (List.mem_cons_self ..)
      rcases set_spec w key' data net with hserver | ⟨hserver, -⟩
      · rw [hserver, Function.update_of_ne hne.symm]
      · rw [hserver]

/-- What a `set` leaves under its key if it returns `true` and its command is not swallowed. -/
theorem server_of_set {w : World} {key data : Bytes} {net : Network}
    (hset : (set w key data net).1 = true)
    (hnone : Swallowed w net → w.server key = some data) :
    (set w key data net).2.server key = some data := by
  rcases set_spec w key data net with hserver | ⟨hserver, hiff⟩
  · rw [hserver, Function.update_self]
  · rw [hserver]
    exact hnone (hiff.mp hset)

/-- If the command of no `set` is swallowed, every promise is kept. -/
theorem NoneSwallowed.durable {w : World} {calls : List Call} (h : NoneSwallowed w calls) :
    Durable w calls := by
  intro pre key data net mid net' post hcalls w₁ hpre hset hmid w₂ hrun value w₃ hget
  have hprefix : pre ++ [.set key data net] <+: calls :=
    ⟨mid ++ .get key net' :: post, by simp [hcalls]⟩
  have hstored := server_of_set hset (h pre key data net hprefix w₁ hpre)
  rw [(get_spec hget).1, run_server hmid hrun, hstored]

/-- However a `get` follows any part of a run, it finds what has been promised if and only if no
command of a `set` in the run is swallowed. -/
theorem durable_iff (w : World) (calls : List Call) :
    (∀ part, part <+: calls → ∀ key net, Durable w (part ++ [.get key net])) ↔
      NoneSwallowed w calls := by
  constructor
  · intro h pre key data net hprefix w' hpre hswallowed
    have hset := set_swallowed hswallowed key data
    have hget : get { w' with err := none } key ⟨.answered, .ok, .answered⟩ =
        some (w'.server key, { w' with err := none }) := get_answered rfl key _ rfl
    exact h _ hprefix key ⟨.answered, .ok, .answered⟩ pre key data net [] _ [] (by simp) w' hpre
      (by rw [hset]) (by simp) _ (by rw [hset]; rfl) _ _ hget
  · intro h part hpart key net
    refine NoneSwallowed.durable fun pre key' data net' hprefix => ?_
    have hin : pre ++ [.set key' data net'] <+: part := by
      rcases List.prefix_concat_iff.mp hprefix with heq | hin
      · exact absurd (List.append_inj_right' heq rfl) (by simp)
      · exact hin
    exact h pre key' data net' (hin.trans hpart)

/-! ## One lost command -/

/-- A new connection to an empty server. -/
def emptyWorld : World := ⟨fun _ => none, none⟩

/-- The command is lost, and then the connection is there again. -/
def lostOnce : Network := ⟨.lost .io, .ok, .answered⟩

/-- The value is lost, but not the promise. -/
theorem lost_set_promised :
    (set emptyWorld [1] [2] lostOnce).1 = true ∧
    get (set emptyWorld [1] [2] lostOnce).2 [1] ⟨.answered, .ok, .answered⟩ =
      some (none, emptyWorld) ∧
    ¬ Durable emptyWorld [.set [1] [2] lostOnce, .get [1] ⟨.answered, .ok, .answered⟩] := by
  have hset : set emptyWorld [1] [2] lostOnce = (true, emptyWorld) :=
    set_swallowed ⟨rfl, rfl⟩ [1] [2]
  have hget : get emptyWorld [1] ⟨.answered, .ok, .answered⟩ = some (none, emptyWorld) :=
    get_answered rfl [1] _ rfl
  rw [hset]
  refine ⟨rfl, hget, fun h => ?_⟩
  have hvalue := h [] [1] [2] lostOnce [] _ [] rfl emptyWorld rfl (by rw [hset]) (by simp) _ rfl
  rw [hset] at hvalue
  cases hvalue none emptyWorld hget

end CoVault.Redis
