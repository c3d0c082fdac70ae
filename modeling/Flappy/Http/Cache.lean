/-
Connections that are kept for the next request (`fetch_cache_get` and `fetch_cache_put` in
`lib/fetch/common.c`).

The cached connections are a linked list.  A connection that is put on the list is the first
to be taken off again; when there are too many, `fetch_cache_put` closes some and goes on
through the one it has just closed.

* `getLoop_spec`, `putLoop_spec` — the two walks through the list;
* `cache_run` — every sequence of calls, up to the first one that reads a closed connection.
-/
import Flappy.Http.Url
import Flappy.Lib.Linked
import Flappy.Lib.Run

open CStr Intrusive

namespace Flappy.Http

/-- `AF_UNSPEC`, `AF_INET` and `AF_INET6`. -/
inductive Af where
  | unspec
  | inet
  | inet6
deriving DecidableEq

/-- `INT_MAX`. -/
def intMax : Int := 2147483647

/-- `cache_global_limit` and `cache_per_host_limit`. -/
structure Limits where
  global : Int
  perHost : Int

/-- `fetchConnectionCacheInit`. -/
def cacheInit (globalLimit perHostLimit : Int) : Limits where
  global :=
    if globalLimit < 0 then intMax
    else if perHostLimit > globalLimit then perHostLimit
    else globalLimit
  perHost := if perHostLimit < 0 then intMax else perHostLimit

/-- The connections, each named by the number it was made as: `cache_url` and `cache_af`, the
list at `connection_cache` through the fields `next_cached`, and which ones have been freed. -/
structure Cache where
  conns : List (Option Url × Af) := []
  cells : Cells Nat := { head := none, next := fun _ => none }
  freed : List Nat := []

/-- The fields of a connection; there are none once it has been freed. -/
def Cache.read (s : Cache) (conn : Nat) : Option (Option Url × Af × Option Nat) :=
  if conn ∈ s.freed then none
  else s.conns[conn]?.map fun c => (c.1, c.2, s.cells.next conn)

/-- `fetch_close`; nothing is freed twice. -/
def Cache.close (s : Cache) (conn : Nat) : Option Cache :=
  if conn ∈ s.freed then none else some { s with freed := conn :: s.freed }

/-- `last_conn->next_cached`, or `connection_cache`. -/
def linkBehind : Option Nat → Link Nat
  | none => .head
  | some last => .next last

/-- The comparison in `fetch_cache_get`. -/
def sameServer (url : Url) (af : Af) (cacheUrl : Url) (cacheAf : Af) : Bool :=
  cacheUrl.port = url.port && cacheUrl.scheme = url.scheme && cacheUrl.host = url.host &&
    cacheUrl.user = url.user && cacheUrl.pwd = url.pwd &&
    (cacheAf = .unspec || af = .unspec || cacheAf = af)

/-- The loop of `fetch_cache_get`.  A walk that is longer than there are connections does not
come to an end. -/
def getLoop (s : Cache) (url : Url) (af : Af) :
    Nat → Option Nat → Option Nat → Option (Option Nat × Cache)
  | _, _, none => some (none, s)
  | 0, _, some _ => none
  | n + 1, last, some conn =>
    match s.read conn with
    | some (some cacheUrl, cacheAf, next) =>
      if sameServer url af cacheUrl cacheAf = true then
        some (some conn, { s with cells := s.cells.write (linkBehind last) next })
      else getLoop s url af n (some conn) next
    | _ => none

/-- `fetch_cache_get`. -/
def cacheGet (url : Url) (af : Af) (s : Cache) : Option (Option Nat × Cache) :=
  getLoop s url af s.conns.length none s.cells.head

/-- The loop of `fetch_cache_put`. -/
def putLoop (limits : Limits) (host : Str) :
    Nat → Int → Int → Option Nat → Option Nat → Cache → Option Cache
  | _, _, _, _, none, s => some s
  | 0, _, _, _, some _, _ => none
  | n + 1, globalCount, hostCount, last, some iter, s =>
    match s.read iter with
    | some (some cacheUrl, _, next) =>
      let globalCount := globalCount + 1
      let hostCount := if host = cacheUrl.host then hostCount + 1 else hostCount
      if globalCount < limits.global ∧ hostCount < limits.perHost then
        putLoop limits host n globalCount hostCount (some iter) next s
      else
        match Cache.close { s with cells := s.cells.write (linkBehind last) next } iter with
        | none => none
        | some s =>
          -- the increment of the loop reads the connection again
          match s.read iter with
          | none => none
          | some (_, _, next) =>
            putLoop limits host n (globalCount - 1) hostCount (some iter) next s
    | _ => none

/-- `fetch_cache_put`; the callback that closes a connection frees it. -/
def cachePut (limits : Limits) (conn : Nat) (s : Cache) : Option Cache :=
  match s.read conn with
  | none => none
  | some (none, _, _) => s.close conn
  | some (some url, _, _) =>
    if limits.global = 0 then s.close conn
    else
      (putLoop limits url.host s.conns.length 0 0 none s.cells.head s).map fun s =>
        { s with cells := {
            head := some conn
            next := Function.update s.cells.next conn s.cells.head } }

/-- `fetchConnectionCacheClose`. -/
def cacheClose : Nat → Cache → Option Cache
  | n, s =>
    match s.cells.head with
    | none => some s
    | some conn =>
      match n, s.read conn with
      | n + 1, some (_, _, next) =>
        (Cache.close { s with cells := { s.cells with head := next } } conn).bind (cacheClose n)
      | _, _ => none

/-! ### The walks -/

/-- Whether a connection is one for this location. -/
def Cache.serves (s : Cache) (url : Url) (af : Af) (conn : Nat) : Bool :=
  match s.conns[conn]? with
  | some (some cacheUrl, cacheAf) => sameServer url af cacheUrl cacheAf
  | _ => false

/-- Whether a connection is one to this host. -/
def Cache.onHost (s : Cache) (host : Str) (conn : Nat) : Bool :=
  match s.conns[conn]? with
  | some (some cacheUrl, _) => decide (host = cacheUrl.host)
  | _ => false

/-- A connection that may stand on the list. -/
structure Cache.Usable (s : Cache) (conn : Nat) : Prop where
  open_conn : conn ∉ s.freed
  url : ∃ url af, s.conns[conn]? = some (some url, af)

theorem Cache.Usable.read {s : Cache} {conn : Nat} (h : s.Usable conn) :
    ∃ url af, s.conns[conn]? = some (some url, af) ∧
      s.read conn = some (some url, af, s.cells.next conn) := by
  obtain ⟨url, af, hconn⟩ := h.url
  exact ⟨url, af, hconn, by rw [Cache.read, if_neg h.open_conn, hconn, Option.map_some]⟩

theorem next_of_linked {c : Cells Nat} {front rest : List Nat} {conn : Nat}
    (h : Linked c (front ++ conn :: rest)) : c.next conn = rest.head? := by
  have hsplit : Linked c ((front ++ [conn]) ++ rest) := by
    rwa [List.append_assoc, List.singleton_append]
  have hread := hsplit.read_lastLink
  rwa [lastLink_concat] at hread

theorem linkBehind_getLast (front : List Nat) : linkBehind front.getLast? = lastLink front := by
  rw [lastLink]
  cases front.getLast? <;> rfl

/-- **The walk of `fetch_cache_get`** takes the first connection off that is one for the
location. -/
theorem getLoop_spec {s : Cache} (url : Url) (af : Af) {front rest : List Nat} {n : Nat}
    (hlinked : Linked s.cells (front ++ rest)) (hnodup : (front ++ rest).Nodup)
    (husable : ∀ c ∈ rest, s.Usable c) (hn : rest.length ≤ n) :
    ((∀ c ∈ rest, s.serves url af c = false) ∧
      getLoop s url af n front.getLast? rest.head? = some (none, s)) ∨
    ∃ before c after cells, rest = before ++ c :: after ∧
      (∀ x ∈ before, s.serves url af x = false) ∧ s.serves url af c = true ∧
      getLoop s url af n front.getLast? rest.head? = some (some c, { s with cells }) ∧
      Linked cells (front ++ before ++ after) := by
  induction rest generalizing front n with
  | nil =>
    refine .inl ⟨by simp, ?_⟩
    cases n <;> rfl
  | cons x rest ih =>
    obtain ⟨n, rfl⟩ : ∃ k, n = k + 1 := ⟨n - 1, by rw [List.length_cons] at hn; omega⟩
    obtain ⟨u, a, hconn, hread⟩ := (husable x List.mem_cons_self).read
    have hserves : s.serves url af x = sameServer url af u a := by
      rw [Cache.serves, hconn]
    have hnext := next_of_linked hlinked
    rw [List.head?_cons, getLoop, hread]
    simp only
    split
    · -- the connection is unlinked from the one that was read before it
      rename_i hsame
      refine .inr ⟨[], x, rest, _, rfl, by simp, hserves.trans hsame, rfl, ?_⟩
      rw [linkBehind_getLast, List.append_nil]
      exact hlinked.unlink hnodup
    · rename_i hsame
      rw [Bool.not_eq_true] at hsame
      -- the connection goes over to the part that has been walked
      have hshift : front ++ x :: rest = (front ++ [x]) ++ rest := by simp
      rw [hshift] at hlinked hnodup
      have hlast : some x = (front ++ [x]).getLast? := by simp
      rw [hnext, hlast]
      rcases ih hlinked hnodup (fun c hc => husable c (List.mem_cons_of_mem _ hc))
          (Nat.le_of_succ_le_succ hn) with
        ⟨hall, hget⟩ | ⟨before, c, after, cells, rfl, hbefore, hc, hget, hlinked'⟩
      · refine .inl ⟨fun c hc => ?_, hget⟩
        rcases List.mem_cons.mp hc with rfl | hc
        · rw [hserves, hsame]
        · exact hall c hc
      · refine .inr ⟨x :: before, c, after, cells, rfl, fun y hy => ?_, hc, hget, ?_⟩
        · rcases List.mem_cons.mp hy with rfl | hy
          · rw [hserves, hsame]
          · exact hbefore y hy
        · simpa using hlinked'

/-- Whether the connections are fewer than the limits allow. -/
def Fits (limits : Limits) (s : Cache) (host : Str) (globalCount hostCount : Int)
    (conns : List Nat) : Prop :=
  conns = [] ∨ (globalCount + conns.length < limits.global ∧
    hostCount + conns.countP (s.onHost host) < limits.perHost)

/-- **The walk of `fetch_cache_put`** leaves the list alone while the limits are not reached;
then it closes a connection and reads it. -/
theorem putLoop_spec {limits : Limits} {s : Cache} {host : Str} {front rest : List Nat} {n : Nat}
    (hlinked : Linked s.cells (front ++ rest)) (husable : ∀ c ∈ rest, s.Usable c)
    (hn : rest.length ≤ n) (globalCount hostCount : Int) :
    (Fits limits s host globalCount hostCount rest →
      putLoop limits host n globalCount hostCount front.getLast? rest.head? s = some s) ∧
    (¬ Fits limits s host globalCount hostCount rest →
      putLoop limits host n globalCount hostCount front.getLast? rest.head? s = none) := by
  induction rest generalizing front n globalCount hostCount with
  | nil => exact ⟨fun _ => by cases n <;> rfl, fun h => absurd (.inl rfl) h⟩
  | cons x rest ih =>
    obtain ⟨n, rfl⟩ : ∃ k, n = k + 1 := ⟨n - 1, by rw [List.length_cons] at hn; omega⟩
    obtain ⟨u, a, hconn, hread⟩ := (husable x List.mem_cons_self).read
    have hnext := next_of_linked hlinked
    have hshift : front ++ x :: rest = (front ++ [x]) ++ rest := by simp
    have hlast : some x = (front ++ [x]).getLast? := by simp
    rw [hshift] at hlinked
    have honHost : s.onHost host x = decide (host = u.host) := by
      rw [Cache.onHost, hconn]
    obtain ⟨hcount, hon, hhost⟩ : ∃ k : Int, (if host = u.host then hostCount + 1 else hostCount) = k ∧
        hostCount + (x :: rest).countP (s.onHost host) = k + rest.countP (s.onHost host) := by
      rcases Decidable.em (host = u.host) with hh | hh
      · refine ⟨hostCount + 1, if_pos hh, ?_⟩
        rw [List.countP_cons, honHost, if_pos (decide_eq_true hh)]
        omega
      · refine ⟨hostCount, if_neg hh, ?_⟩
        rw [List.countP_cons, honHost, if_neg (by simp [hh])]
        omega
    have hfits : Fits limits s host globalCount hostCount (x :: rest) ↔
        globalCount + (rest.length + 1) < limits.global ∧
          hcount + rest.countP (s.onHost host) < limits.perHost := by
      rw [Fits, hhost, List.length_cons]
      simp
    rw [hfits, List.head?_cons, putLoop, hread]
    simp only
    rw [hon]
    split
    · -- the counts go up with the connection, and come to the same at the end
      rename_i hroom
      obtain ⟨hyes, hno⟩ := ih hlinked (fun c hc => husable c (List.mem_cons_of_mem _ hc))
        (Nat.le_of_succ_le_succ hn) (globalCount + 1) hcount
      have hiff : Fits limits s host (globalCount + 1) hcount rest ↔
          globalCount + (rest.length + 1) < limits.global ∧
            hcount + rest.countP (s.onHost host) < limits.perHost := by
        rw [Fits]
        constructor
        · rintro (rfl | h)
          · simpa using hroom
          · omega
        · intro h
          omega
      rw [hnext, hlast, ← hiff]
      exact ⟨hyes, hno⟩
    · -- the loop closes the connection and then reads its `next_cached`
      rename_i hroom
      have hclosed : x ∉ s.freed := (husable x List.mem_cons_self).open_conn
      refine ⟨fun h => absurd h (by omega), fun _ => ?_⟩
      rw [Cache.close, if_neg hclosed]
      simp only
      rw [Cache.read, if_pos List.mem_cons_self]

/-! ### Runs -/

/-- What is done with connections: one is made, with a location (`fetch_connect`) or without
(`fetch_reopen`), or taken from the cache, put there, or closed, or the cache is emptied. -/
inductive Call where
  | connect (url : Url) (af : Af)
  | reopen
  | get (url : Url) (af : Af)
  | put (conn : Nat)
  | close (conn : Nat)
  | closeAll

/-- A call, and the connections that the callers hold. -/
def Call.exec (limits : Limits) (st : Cache × List Nat) : Call → Option (Cache × List Nat)
  | .connect url af =>
    some ({ st.1 with conns := st.1.conns ++ [(some url, af)] }, st.1.conns.length :: st.2)
  | .reopen =>
    some ({ st.1 with conns := st.1.conns ++ [(none, .unspec)] }, st.1.conns.length :: st.2)
  | .get url af => (cacheGet url af st.1).map fun r => (r.2, r.1.toList ++ st.2)
  | .put conn => (cachePut limits conn st.1).map fun s => (s, st.2.erase conn)
  | .close conn => (st.1.close conn).map fun s => (s, st.2.erase conn)
  | .closeAll => (cacheClose st.1.conns.length st.1).map fun s => (s, st.2)

/-- Whether a connection that is put is kept. -/
def Cache.keeps (limits : Limits) (s : Cache) (conn : Nat) : Bool :=
  decide (limits.global ≠ 0) && (s.conns[conn]?.bind Prod.fst).isSome

/-- What is cached after a call, the connection put last in front: a get takes the first one for
the location away. -/
def Call.cached (limits : Limits) (s : Cache) (cached : List Nat) : Call → List Nat
  | .get url af => cached.eraseP (s.serves url af)
  | .put conn => if s.keeps limits conn = true then conn :: cached else cached
  | .closeAll => []
  | .connect _ _ | .reopen | .close _ => cached

/-- A call, with the connections that are to be cached after it. -/
def Call.track (limits : Limits) (st : (Cache × List Nat) × List Nat) (call : Call) :
    Option ((Cache × List Nat) × List Nat) :=
  (call.exec limits st.1).map fun st' => (st', call.cached limits st.1.1 st.2)

/-- Callers put and close only what they hold. -/
def Call.Proper (held : List Nat) : Call → Prop
  | .put conn => conn ∈ held
  | .close conn => conn ∈ held
  | _ => True

/-- **The cache**: each connection is cached, or held by a caller, or closed, and the limits are
kept. -/
structure Cached (limits : Limits) (s : Cache) (held cached : List Nat) : Prop where
  linked : Linked s.cells cached
  partition : (cached ++ held ++ s.freed).Perm (List.range s.conns.length)
  url : ∀ c ∈ cached, ∃ url af, s.conns[c]? = some (some url, af)
  global : (cached.length : Int) ≤ limits.global
  perHost : ∀ host, (cached.countP (s.onHost host) : Int) ≤ limits.perHost ∨
    cached.countP (s.onHost host) ≤ 1

/-- A cache that has no room for another connection to the host. -/
structure Full (limits : Limits) (s : Cache) (cached : List Nat) (conn : Nat) : Prop where
  caching : limits.global ≠ 0
  reached : ∃ url af, s.conns[conn]? = some (some url, af) ∧ ¬ Fits limits s url.host 0 0 cached

namespace Cached

variable {limits : Limits} {s : Cache} {held cached : List Nat}

theorem nodup (h : Cached limits s held cached) : (cached ++ held ++ s.freed).Nodup :=
  h.partition.nodup_iff.mpr List.nodup_range

theorem lt_of_mem (h : Cached limits s held cached) {c : Nat}
    (hc : c ∈ cached ++ held ++ s.freed) : c < s.conns.length :=
  List.mem_range.mp (h.partition.mem_iff.mp hc)

theorem not_freed (h : Cached limits s held cached) {c : Nat} (hc : c ∈ cached ++ held) :
    c ∉ s.freed := fun hf => List.disjoint_of_nodup_append h.nodup hc hf

theorem usable (h : Cached limits s held cached) : ∀ c ∈ cached, s.Usable c := fun c hc =>
  ⟨h.not_freed (List.mem_append_left _ hc), h.url c hc⟩

theorem length_le (h : Cached limits s held cached) : cached.length ≤ s.conns.length := by
  have hlen := h.partition.length_eq
  rw [List.length_append, List.length_append, List.length_range] at hlen
  omega

/-- What is taken from the cache is the first cached connection for the location. -/
theorem get (h : Cached limits s held cached) (url : Url) (af : Af) :
    ∃ s', cacheGet url af s = some (cached.find? (s.serves url af), s') ∧
      Cached limits s' ((cached.find? (s.serves url af)).toList ++ held)
        (cached.eraseP (s.serves url af)) := by
  have hnodup : (cached).Nodup := (h.nodup.of_append_left).of_append_left
  have hlinked : Linked s.cells ([] ++ cached) := h.linked
  rcases getLoop_spec url af hlinked hnodup h.usable h.length_le with
    ⟨hall, hget⟩ | ⟨before, c, after, cells, rfl, hbefore, hc, hget, hlinked'⟩
  · have hfind : cached.find? (s.serves url af) = none := by
      rw [List.find?_eq_none]
      exact fun c hc => by simp [hall c hc]
    rw [hfind, List.eraseP_of_forall_not fun c hc => by simp [hall c hc]]
    refine ⟨s, ?_, h⟩
    rw [← hget, cacheGet, h.linked.head_eq]
    rfl
  · have hfind : (before ++ c :: after).find? (s.serves url af) = some c := by
      rw [List.find?_append, List.find?_eq_none.mpr fun x hx => by simp [hbefore x hx],
        Option.none_or, List.find?_cons, hc]
    have herase : (before ++ c :: after).eraseP (s.serves url af) = before ++ after := by
      rw [List.eraseP_append_right _ fun x hx => by simp [hbefore x hx],
        List.eraseP_cons_of_pos hc]
    rw [hfind, herase]
    refine ⟨{ s with cells }, ?_, hlinked', ?_, fun x hx => h.url x ?_, ?_, fun host => ?_⟩
    · rw [← hget, cacheGet, h.linked.head_eq]
      rfl
    · -- the connection goes from the list to the caller
      refine List.Perm.trans (List.Perm.append_right _ ?_) h.partition
      show (before ++ after ++ c :: held).Perm (before ++ c :: after ++ held)
      rw [List.append_assoc, List.append_assoc]
      exact List.perm_middle.append_left before
    · rcases List.mem_append.mp hx with hx | hx <;> simp [hx]
    · have hglobal := h.global
      simp only [List.length_append, List.length_cons] at hglobal ⊢
      omega
    · have hle : (before ++ after).countP (s.onHost host) ≤
          (before ++ c :: after).countP (s.onHost host) :=
        ((List.Sublist.refl before).append (List.sublist_cons_self c after)).countP_le
      have hlimit := h.perHost host
      show ((before ++ after).countP (s.onHost host) : Int) ≤ limits.perHost ∨
        (before ++ after).countP (s.onHost host) ≤ 1
      omega

/-- A new connection is in the hands of the caller. -/
theorem made (h : Cached limits s held cached) (c : Option Url × Af) :
    Cached limits { s with conns := s.conns ++ [c] } (s.conns.length :: held) cached := by
  have hold : ∀ x ∈ cached, (s.conns ++ [c])[x]? = s.conns[x]? := fun x hx =>
    List.getElem?_append_left (h.lt_of_mem (by simp [hx]))
  refine ⟨h.linked, ?_, fun x hx => ?_, h.global, fun host => ?_⟩
  · show (cached ++ s.conns.length :: held ++ s.freed).Perm
      (List.range (s.conns ++ [c]).length)
    rw [List.length_append, List.length_singleton, List.range_succ, List.append_assoc]
    have hpart := h.partition
    rw [List.append_assoc] at hpart
    exact (List.perm_middle.trans (hpart.cons _)).trans (List.perm_append_singleton _ _).symm
  · obtain ⟨url, af, hurl⟩ := h.url x hx
    exact ⟨url, af, (hold x hx).trans hurl⟩
  · rw [List.countP_congr fun x hx => ?_]
    · exact h.perHost host
    · rw [Cache.onHost, Cache.onHost]
      simp only [hold x hx]

/-- A connection that a caller holds is closed. -/
theorem closed (h : Cached limits s held cached) {c : Nat} (hc : c ∈ held) :
    ∃ s', s.close c = some s' ∧ Cached limits s' (held.erase c) cached := by
  have hopen : c ∉ s.freed := h.not_freed (List.mem_append_right _ hc)
  refine ⟨{ s with freed := c :: s.freed }, by rw [Cache.close, if_neg hopen], h.linked, ?_, h.url,
    h.global, h.perHost⟩
  refine List.Perm.trans ?_ h.partition
  rw [List.append_assoc, List.append_assoc]
  refine List.Perm.append_left cached (List.perm_middle.trans ?_)
  exact (List.perm_cons_erase hc).symm.append_right s.freed

/-- A connection that a caller holds is put on the list. -/
theorem put (h : Cached limits s held cached) {c : Nat} (hc : c ∈ held)
    (hroom : ¬ Full limits s cached c) :
    ∃ s', cachePut limits c s = some s' ∧
      Cached limits s' (held.erase c) ((Call.put c).cached limits s cached) := by
  have hopen : c ∉ s.freed := h.not_freed (List.mem_append_right _ hc)
  have hlt : c < s.conns.length := h.lt_of_mem (by simp [hc])
  rcases hconn : s.conns[c]? with _ | ⟨_ | url, af⟩
  · rw [List.getElem?_eq_none_iff] at hconn
    omega
  · -- one without a location is closed
    obtain ⟨s', hclose, h'⟩ := h.closed hc
    rw [Call.cached, Cache.keeps, hconn, if_neg (by simp)]
    refine ⟨s', ?_, h'⟩
    rw [cachePut, Cache.read, if_neg hopen, hconn]
    exact hclose
  · have hread : s.read c = some (some url, af, s.cells.next c) := by
      rw [Cache.read, if_neg hopen, hconn, Option.map_some]
    rw [cachePut, hread, Call.cached, Cache.keeps, hconn]
    simp only
    split
    · -- nothing is cached
      rename_i hnone
      obtain ⟨s', hclose, h'⟩ := h.closed hc
      rw [if_neg (by simp [hnone])]
      exact ⟨s', hclose, h'⟩
    · rename_i hcaching
      rw [if_pos (by simp [hcaching])]
      have hfits : Fits limits s url.host 0 0 cached := by
        by_contra hno
        exact hroom ⟨hcaching, url, af, hconn, hno⟩
      have hlinked : Linked s.cells ([] ++ cached) := h.linked
      have hput := (putLoop_spec hlinked h.usable h.length_le 0 0).1 hfits
      -- it is the caller's, so it is not on the list, and the list stays as it is behind it
      have hnew : c ∉ cached := fun hmem =>
        List.disjoint_of_nodup_append h.nodup.of_append_left hmem hc
      refine ⟨{ s with cells := {
          head := some c
          next := Function.update s.cells.next c s.cells.head } }, ?_, ⟨rfl, ?_⟩, ?_,
        fun x hx => ?_, ?_, fun host => ?_⟩
      · rw [h.linked.head_eq]
        show Option.map _ (putLoop limits url.host s.conns.length 0 0 [].getLast? cached.head? s) = _
        rw [hput, Option.map_some, h.linked.head_eq]
      · show Seg (Function.update s.cells.next c s.cells.head)
          (Function.update s.cells.next c s.cells.head c) cached none
        rw [Function.update_self]
        refine Seg.congr (fun x hx => Function.update_of_ne ?_ _ _) h.linked
        rintro rfl
        exact hnew hx
      · -- the connection goes from the caller to the list
        refine List.Perm.trans ?_ h.partition
        refine List.Perm.append_right s.freed ?_
        exact List.perm_middle.symm.trans ((List.perm_cons_erase hc).symm.append_left cached)
      · rcases List.mem_cons.mp hx with rfl | hx
        · exact ⟨url, af, hconn⟩
        · exact h.url x hx
      · -- the walk has found room, or nothing
        have hglobal := h.global
        rw [List.length_cons]
        rcases hfits with rfl | hfits
        · rw [List.length_nil] at hglobal ⊢
          omega
        · omega
      · -- the first connection of all is put whatever the limit for its host is
        have hhost := h.perHost host
        show ((c :: cached).countP (s.onHost host) : Int) ≤ limits.perHost ∨
          (c :: cached).countP (s.onHost host) ≤ 1
        rw [List.countP_cons]
        rcases hfits with rfl | hfits
        · right
          split <;> simp
        · split
          · rename_i hon
            obtain rfl : host = url.host := by
              rw [Cache.onHost, hconn] at hon
              simpa using hon
            omega
          · omega

/-- Emptying the cache closes all that is on the list. -/
theorem closeLoop {n : Nat} (h : Cached limits s held cached) (hn : cached.length ≤ n) :
    ∃ s', cacheClose n s = some s' ∧ Cached limits s' held [] := by
  induction cached generalizing s n with
  | nil =>
    have hhead : s.cells.head = none := h.linked.head_eq
    refine ⟨s, ?_, h⟩
    rw [cacheClose.eq_def]
    simp only [hhead]
  | cons c cached ih =>
    obtain ⟨n, rfl⟩ : ∃ k, n = k + 1 := ⟨n - 1, by rw [List.length_cons] at hn; omega⟩
    obtain ⟨u, a, hconn, hread⟩ := (h.usable c List.mem_cons_self).read
    have hhead : s.cells.head = some c := h.linked.head_eq
    have hopen := (h.usable c List.mem_cons_self).open_conn
    -- the head has been unlinked and closed
    have h' : Cached limits
        { s with cells := { s.cells with head := s.cells.next c }, freed := c :: s.freed }
        held cached := by
      refine ⟨h.linked.tail, ?_, fun x hx => h.url x (List.mem_cons_of_mem _ hx), ?_,
        fun host => ?_⟩
      · refine List.Perm.trans ?_ h.partition
        exact List.perm_middle
      · have hglobal := h.global
        rw [List.length_cons] at hglobal
        omega
      · have hhost := h.perHost host
        rw [List.countP_cons] at hhost
        show (cached.countP (s.onHost host) : Int) ≤ limits.perHost ∨
          cached.countP (s.onHost host) ≤ 1
        omega
    obtain ⟨s', hclose, h''⟩ := ih h' (Nat.le_of_succ_le_succ hn)
    refine ⟨s', ?_, h''⟩
    rw [cacheClose.eq_def]
    simp only [hhead, hread]
    rw [Cache.close, if_neg hopen, Option.bind_some]
    exact hclose

/-- A full cache is not put on: a connection that has just been closed is read. -/
theorem put_full (h : Cached limits s held cached) {c : Nat} (hc : c ∈ held)
    (hfull : Full limits s cached c) : cachePut limits c s = none := by
  have hopen : c ∉ s.freed := h.not_freed (List.mem_append_right _ hc)
  obtain ⟨hcaching, url, af, hconn, hno⟩ := hfull
  have hlinked : Linked s.cells ([] ++ cached) := h.linked
  have hput := (putLoop_spec hlinked h.usable h.length_le 0 0).2 hno
  rw [cachePut, Cache.read, if_neg hopen, hconn, Option.map_some]
  simp only
  rw [if_neg hcaching, h.linked.head_eq]
  show Option.map _ (putLoop limits url.host s.conns.length 0 0 [].getLast? cached.head? s) = none
  rw [hput, Option.map_none]

/-- **What a call keeps.** -/
theorem exec_spec (h : Cached limits s held cached) {call : Call} (hproper : call.Proper held)
    (hroom : ∀ c, call = .put c → ¬ Full limits s cached c) :
    ∃ s' held', call.exec limits (s, held) = some (s', held') ∧
      Cached limits s' held' (call.cached limits s cached) := by
  cases call with
  | connect url af => exact ⟨_, _, rfl, h.made _⟩
  | reopen => exact ⟨_, _, rfl, h.made _⟩
  | get url af =>
    obtain ⟨s', hget, h'⟩ := h.get url af
    exact ⟨s', _, by rw [Call.exec, hget]; rfl, h'⟩
  | put c =>
    obtain ⟨s', hput, h'⟩ := h.put hproper (hroom c rfl)
    exact ⟨s', _, by rw [Call.exec, hput]; rfl, h'⟩
  | close c =>
    obtain ⟨s', hclose, h'⟩ := h.closed hproper
    exact ⟨s', _, by rw [Call.exec, hclose]; rfl, h'⟩
  | closeAll =>
    obtain ⟨s', hclose, h'⟩ := h.closeLoop h.length_le
    exact ⟨s', _, by rw [Call.exec, hclose]; rfl, h'⟩

end Cached

/-- The global limit is not negative. -/
theorem cacheInit_global (globalLimit perHostLimit : Int) :
    0 ≤ (cacheInit globalLimit perHostLimit).global := by
  simp only [cacheInit, intMax]
  split_ifs <;> omega

/-- **Every sequence of calls** keeps each connection in one place, open while it is cached, and
hands out the connection to the same server that was put last; until a caller puts or closes a
connection that is not its own, or one is put on a full cache: then a closed connection is
read. -/
theorem cache_run (globalLimit perHostLimit : Int) (calls : List Call) :
    (∃ s held cached,
      Run.run (Call.track (cacheInit globalLimit perHostLimit)) (({}, []), []) calls =
          some ((s, held), cached) ∧
        Cached (cacheInit globalLimit perHostLimit) s held cached ∧
        ∀ url af, ∃ s', cacheGet url af s = some (cached.find? (s.serves url af), s')) ∨
    ∃ before call after s held cached, calls = before ++ call :: after ∧
      Run.run (Call.track (cacheInit globalLimit perHostLimit)) (({}, []), []) before =
          some ((s, held), cached) ∧
      Cached (cacheInit globalLimit perHostLimit) s held cached ∧
      (call.Proper held → ∃ c, call = .put c ∧
        Full (cacheInit globalLimit perHostLimit) s cached c ∧
        call.exec (cacheInit globalLimit perHostLimit) (s, held) = none) := by
  have hglobal := cacheInit_global globalLimit perHostLimit
  generalize cacheInit globalLimit perHostLimit = limits at hglobal ⊢
  have hstart : Cached limits {} [] [] :=
    ⟨rfl, List.Perm.nil, by simp, hglobal, fun _ => .inr (Nat.zero_le 1)⟩
  have hstep : ∀ (st : (Cache × List Nat) × List Nat) (call : Call),
      Cached limits st.1.1 st.1.2 st.2 →
      (call.Proper st.1.2 ∧ ∀ c, call = .put c → ¬ Full limits st.1.1 st.2 c) →
      ∃ st', call.track limits st = some st' ∧ Cached limits st'.1.1 st'.1.2 st'.2 := by
    rintro ⟨⟨s, held⟩, cached⟩ call h ⟨hproper, hroom⟩
    obtain ⟨s', held', hexec, h'⟩ := h.exec_spec hproper hroom
    exact ⟨((s', held'), _), by rw [Call.track, hexec]; rfl, h'⟩
  rcases Run.exists_run_or _ hstep (s := (({}, []), [])) hstart calls with
    ⟨⟨⟨s, held⟩, cached⟩, hrun, h⟩ | ⟨before, call, after, ⟨⟨s, held⟩, cached⟩, hcalls, hrun, h, hno⟩
  · refine .inl ⟨s, held, cached, hrun, h, fun url af => ?_⟩
    obtain ⟨s', hget, -⟩ := h.get url af
    exact ⟨s', hget⟩
  · refine .inr ⟨before, call, after, s, held, cached, hcalls, hrun, h, fun hproper => ?_⟩
    -- the call is the caller's to make, so the cache has been full
    simp only [not_and, not_forall, not_not] at hno
    obtain ⟨c, rfl, hfull⟩ := hno hproper
    exact ⟨c, rfl, hfull, by rw [Call.exec, h.put_full hproper hfull, Option.map_none]⟩

example (url : Url) : Run.run (Call.exec (cacheInit 1 1)) ({}, [])
    [.connect url .unspec, .connect url .unspec, .put 0, .put 1] = none := by
  simp [Run.run, Call.exec, cachePut, putLoop, Cache.read, Cache.close, cacheInit]

end Flappy.Http
