import MoonInWater.Lib.Threads
import MoonInWater.RingBuffer.Model
import Mathlib.Logic.Function.Basic

/-! The name cache of moon_dns.c: moon_getaddrinfo, cancel_query, domain_callback and the
loop of dns_task. Each section under the mutex, each access to the status of a query
outside it and each access to p_add_cares is one step. -/
namespace MoonInWater.Dns
open Threads
open RingBuffer (TimeVal)

/-- DNS_TIMEOUT_S. -/
def dnsTimeoutS : Int := 3600

/-- DNS_CACHE_NUM. -/
def dnsCacheNum : Int := 1024

/-! The states of a domain; 0 is the one of a fresh entry. -/

abbrev domainQuerying : Int := 1
abbrev domainQuery1 : Int := 2
abbrev domainQuery2 : Int := 3
abbrev domainNewQuerying : Int := 4
abbrev domainNewQuery1 : Int := 5

def compareTv (tv1 tv2 : TimeVal) : Int := RingBuffer.tvCompare tv1 tv2

/-- dns_addrs_s. -/
structure Addrs (A : Type) where
  elems : List A
  tv : TimeVal
deriving DecidableEq

/-- dns_domain_s with its key in the hash table and the link behind it. `queries` is the
list at p_query_head. -/
structure Domain (Q A : Type) where
  key : List Char
  status : Int
  pAddrs : Option (Addrs A)
  pNewAddrs : Option (Addrs A)
  queries : List Q
  next : Option Nat
  freed : Bool
deriving DecidableEq

/-- dns_query_s and its pipe. `refs` counts the references that moon_getaddrinfo took,
`noticed` and `canceled` those that notice_user and cancel_query dropped, `strays` the
times that cancel_query unlinked it while it was not waiting. -/
structure Query where
  status : Int
  pDomain : Option Nat
  used : Bool
  initDone : Bool
  closed : Bool
  refs : Nat
  noticed : Nat
  canceled : Nat
  strays : Nat
deriving DecidableEq

/-- What a notice_user has before it: p_query and what is linked after it. -/
structure Batch (Q : Type) where
  pQuery : Option Q
  rest : List Q
deriving DecidableEq

/-- dns_private_s with the memory of domains and queries. The age list is the one from
p_domain_head to p_domain_tail; `lookups` are the callbacks that are sure to come. -/
structure DnsPrivate (Q A : Type) where
  table : List Nat
  domains : Nat → Domain Q A
  fresh : Nat
  age : List Nat
  domainNum : Int
  pAddCares : Option Nat
  queries : Q → Query
  batches : List (Batch Q)
  started : Bool
  lookups : Nat → Nat
  pushes : Nat → Nat
  visits : Nat → Nat

variable {Q A : Type}

def freshDomain (name : List Char) : Domain Q A := ⟨name.take 255, 0, none, none, [], none, false⟩

def freshQuery : Query := ⟨0, none, false, false, false, 0, 0, 0, 0⟩

def initial : DnsPrivate Q A where
  table := []
  domains _ := freshDomain []
  fresh := 0
  age := []
  domainNum := 0
  pAddCares := none
  queries _ := freshQuery
  batches := []
  started := false
  lookups _ := 0
  pushes _ := 0
  visits _ := 0

def DnsPrivate.setDomain (g : DnsPrivate Q A) (d : Nat) (dom : Domain Q A) : DnsPrivate Q A :=
  { g with domains := Function.update g.domains d dom }

/-- hash_search. The new entry stands in front of the others of its bucket. -/
def hashSearch (alloc : Bool) (g : DnsPrivate Q A) (name : List Char) : DnsPrivate Q A × Option Nat :=
  match g.table.find? fun d => (g.domains d).key = name with
  | some d => (g, some d)
  | none =>
    if alloc then
      ({ g.setDomain g.fresh (freshDomain name) with
        table := g.fresh :: g.table
        fresh := g.fresh + 1 }, some g.fresh)
    else (g, none)

def hashDel (d : Nat) (g : DnsPrivate Q A) : DnsPrivate Q A := { g with table := g.table.erase d }

/-- dlist_del of a domain, with domain_num. -/
def ageDel (d : Nat) (g : DnsPrivate Q A) : DnsPrivate Q A :=
  { g with age := g.age.erase d, domainNum := g.domainNum - 1 }

/-- What moon_getaddrinfo is asked for: a name, or an address that inet_pton takes. -/
inductive Host (A : Type) where
  | name (name : List Char)
  | numeric (addr : A)
deriving DecidableEq

inductive GetPc where
  | lock
  | setStatus
  | initDone
  | notice
  | noticeUser (batch : Nat)
  | readCares
  | linkCares (tmp : Option Nat)
  | casCares (tmp : Option Nat)
  | done (ret : Int)
deriving DecidableEq

/-- The variables of a call of moon_getaddrinfo. -/
structure Get (Q A : Type) where
  query : Q
  host : Host A
  clearCache : Bool
  dontUseCache : Bool
  tv : Option TimeVal
  domain : Option Nat
  newAddrs : Option (Addrs A)
  isNew : Bool
  addQuery : Bool
  initFail : Bool
  pc : GetPc
deriving DecidableEq

/-- Whether the flag asks for fresh addresses and those of the cache are too old for the
call; p_addrs is read only for a given p_tv. -/
def stale (flag : Bool) (dom : Domain Q A) (tv : Option TimeVal) : Option Bool :=
  match flag, tv with
  | false, _ => some false
  | true, none => some true
  | true, some tv => dom.pAddrs.map fun addrs => decide (compareTv addrs.tv tv ≤ 0)

/-- The switch of moon_getaddrinfo on the status of the domain. -/
def request (g : DnsPrivate Q A) (c : Get Q A) (d : Nat) : Option (DnsPrivate Q A × Get Q A) :=
  let dom := g.domains d
  let isNew := decide (dom.status = domainQuery2)
  let news : Int := if isNew then 1 else 0
  if dom.status = 0 then
    some (g.setDomain d { dom with status := dom.status + 1 },
      { c with isNew := true, addQuery := true })
  else if dom.status = domainQuerying ∨ dom.status = domainQuery1 then
    some (g, { c with addQuery := true })
  else if dom.status = domainQuery2 ∨ dom.status = domainNewQuerying ∨
      dom.status = domainNewQuery1 then do
    let clear ← stale c.clearCache dom c.tv
    let refresh ← stale (!clear && c.dontUseCache) dom c.tv
    if clear then
      some (ageDel d (g.setDomain d { dom with status := dom.status - domainQuery2 + news }),
        { c with isNew := isNew, addQuery := true })
    else if refresh then
      some (g.setDomain d { dom with status := dom.status + news },
        { c with isNew := isNew, addQuery := true })
    else some (g, { c with newAddrs := dom.pAddrs })
  else some (g, c)

section
variable [DecidableEq Q]

def DnsPrivate.setQuery (g : DnsPrivate Q A) (q : Q) (query : Query) : DnsPrivate Q A :=
  { g with queries := Function.update g.queries q query }

/-- The query waits for the domain, with a reference of its own. -/
def addWaiting (g : DnsPrivate Q A) (q : Q) (d : Nat) : DnsPrivate Q A :=
  let dom := g.domains d
  let query := g.queries q
  (g.setDomain d { dom with queries := q :: dom.queries }).setQuery q
    { query with pDomain := some d, refs := query.refs + 1 }

/-- The section of moon_getaddrinfo. -/
def getSection (alloc : Bool) (g : DnsPrivate Q A) (c : Get Q A) (name : List Char) :
    Option (DnsPrivate Q A × Get Q A) :=
  match hashSearch alloc g name with
  | (g, none) => some (g, c)
  | (g, some d) => do
    let (g, c) ← request g { c with domain := some d, initFail := false } d
    some (if c.addQuery then addWaiting g c.query d else g, c)

/-- One turn of the loop of notice_user; `none` at its end. -/
def noticeUser (g : DnsPrivate Q A) (b : Nat) : Option (DnsPrivate Q A) :=
  match g.batches[b]? with
  | some ⟨some q, rest⟩ =>
    let query := g.queries q
    some { g.setQuery q { query with noticed := query.noticed + 1 } with
      batches := g.batches.set b ⟨rest.head?, rest.tail⟩ }
  | _ => none

/-- Who answers the domains that are queued: each push brings two callbacks, or each
ares_gethostbyname of the walk brings one. -/
inductive Grant where
  | atPush
  | atVisit
deriving DecidableEq

def DnsPrivate.grant (g : DnsPrivate Q A) (d n : Nat) : DnsPrivate Q A :=
  { g with lookups := Function.update g.lookups d (g.lookups d + n) }

/-- How the surroundings answer: the clock and whether memory is found. -/
structure Answer where
  now : TimeVal
  alloc : Bool
deriving DecidableEq

/-- A step of moon_getaddrinfo. -/
def getStep (grant : Grant) (a : Answer) (g : DnsPrivate Q A) (c : Get Q A) :
    Option (DnsPrivate Q A × Get Q A) :=
  let query := g.queries c.query
  match c.pc with
  | .lock =>
    match c.host with
    | .name name => (getSection a.alloc g c name).map fun r => (r.1, { r.2 with pc := .setStatus })
    | .numeric addr =>
      let c := if a.alloc then { c with newAddrs := some ⟨[addr], a.now⟩, initFail := false } else c
      some (g.setQuery c.query { query with status := 1 }, { c with pc := .initDone })
  | .setStatus =>
    some (g.setQuery c.query { query with status := if c.addQuery then 0 else 1 },
      { c with pc := .initDone })
  | .initDone =>
    let next := if c.newAddrs.isSome then .notice else if c.isNew then .readCares
      else .done (if c.initFail then -1 else 0)
    some (g.setQuery c.query { query with initDone := true }, { c with pc := next })
  | .notice =>
    some ({ g.setQuery c.query { query with refs := query.refs + 1 } with
      batches := g.batches ++ [⟨some c.query, []⟩] },
      { c with pc := .noticeUser g.batches.length })
  | .noticeUser b =>
    match noticeUser g b with
    | some g => some (g, c)
    | none => some (g, { c with pc := .done (if c.initFail then -1 else 0) })
  | .readCares => some (g, { c with pc := .linkCares g.pAddCares })
  | .linkCares tmp => do
    let d ← c.domain
    some (g.setDomain d { g.domains d with next := tmp }, { c with pc := .casCares tmp })
  | .casCares tmp => do
    let d ← c.domain
    if g.pAddCares = tmp then
      let g := { g with
        pAddCares := some d
        pushes := Function.update g.pushes d (g.pushes d + 1) }
      some (if grant = .atPush then g.grant d 2 else g,
        { c with pc := .done (if c.initFail then -1 else 0) })
    else some (g, { c with pc := .readCares })
  | .done _ => none

inductive CancelPc where
  | look
  | lock
  | drop
  | done
deriving DecidableEq

def Batch.dlistDel (q : Q) (b : Batch Q) : Batch Q :=
  if b.pQuery = some q then { b with rest := [] } else { b with rest := b.rest.erase q }

/-- dlist_del of a query, in whichever list it is linked. -/
def queryDel (q : Q) (g : DnsPrivate Q A) : DnsPrivate Q A :=
  { g with
    domains := fun d => { g.domains d with queries := (g.domains d).queries.erase q }
    batches := g.batches.map (Batch.dlistDel q) }

/-- A step of cancel_query. -/
def cancelStep (g : DnsPrivate Q A) (q : Q) : CancelPc → Option (DnsPrivate Q A × CancelPc)
  | .look => some (g, if (g.queries q).status ≠ 0 then .done else .lock)
  | .lock => do
    let query := g.queries q
    if query.status = 0 then
      let d ← query.pDomain
      let strays := if q ∈ (g.domains d).queries then query.strays else query.strays + 1
      some ((queryDel q g).setQuery q { query with status := 1, strays := strays }, .drop)
    else some (g, .done)
  | .drop =>
    let query := g.queries q
    some (g.setQuery q { query with canceled := query.canceled + 1 }, .done)
  | .done => none

/-- merge_addrs as to what is in p_addrs afterwards. -/
def mergeAddrs (now : TimeVal) (newAddrs addrs : Option (Addrs A)) : Option (Addrs A) :=
  match newAddrs, addrs with
  | some new, some addrs => some ⟨new.elems ++ addrs.elems, now⟩
  | some new, none => some ⟨new.elems, now⟩
  | none, some addrs => some ⟨addrs.elems, now⟩
  | none, none => none

/-- The oldest domain leaves a cache that has grown too large; with the domain to free. -/
def evict (g : DnsPrivate Q A) : DnsPrivate Q A × Option Nat :=
  match g.age with
  | [] => (g, none)
  | old :: _ =>
    let g := ageDel old g
    let dom := g.domains old
    if dom.status = domainQuery2 then (hashDel old g, some old)
    else (g.setDomain old { dom with status := dom.status - domainQuery2 }, none)

/-- Both lookups of a domain are done: it has the merged addresses, and its queries are told. -/
def settle (now : TimeVal) (g : DnsPrivate Q A) (d : Nat) (addrs : Option (Addrs A)) :
    DnsPrivate Q A :=
  let dom := g.domains d
  { g.setDomain d { dom with
      status := domainQuery2
      pAddrs := mergeAddrs now dom.pNewAddrs addrs
      pNewAddrs := none
      queries := [] } with
    queries := fun q =>
      if q ∈ dom.queries then { g.queries q with status := 1 } else g.queries q
    batches := g.batches ++ [⟨dom.queries.head?, dom.queries.tail⟩] }

/-- dlist_insert of a domain in front of p_domain_tail, with domain_num. -/
def ageAdd (d : Nat) (g : DnsPrivate Q A) : DnsPrivate Q A :=
  { g with age := g.age ++ [d], domainNum := g.domainNum + 1 }

/-- The end of the lookups: the domain is back on the age list, or given up; with the
domain to free. -/
def complete (now : TimeVal) (g : DnsPrivate Q A) (d : Nat) (addrs : Option (Addrs A)) :
    DnsPrivate Q A × Option Nat :=
  let g := settle now g d addrs
  if (g.domains d).pAddrs.isSome then
    let g := ageAdd d g
    if dnsCacheNum < g.domainNum then evict g else (g, none)
  else (hashDel d g, some d)

/-- The section of domain_callback; with the domain to free. -/
def callbackSection (now : TimeVal) (g : DnsPrivate Q A) (d : Nat) (addrs : Option (Addrs A)) :
    DnsPrivate Q A × Option Nat :=
  let dom := g.domains d
  if dom.status = domainQuerying ∨ dom.status = domainNewQuerying then
    (g.setDomain d { dom with pNewAddrs := addrs, status := dom.status + 1 }, none)
  else if dom.status = domainNewQuery1 then complete now (ageDel d g) d addrs
  else if dom.status = domainQuery1 then complete now g d addrs
  else (g, none)

inductive CallbackPc where
  | lock
  | noticeUser (batch : Nat) (del : Option Nat)
  | free (del : Option Nat)
  | done
deriving DecidableEq

def free (d : Nat) (g : DnsPrivate Q A) : DnsPrivate Q A := g.setDomain d { g.domains d with freed := true }

/-- A step of domain_callback; `addrs` is what save_addrs has made of the answer. -/
def callbackStep (a : Answer) (g : DnsPrivate Q A) (d : Nat) (addrs : Option (Addrs A)) :
    CallbackPc → Option (DnsPrivate Q A × CallbackPc)
  | .lock =>
    let (g', del) := callbackSection a.now g d addrs
    some (g', .noticeUser g.batches.length del)
  | .noticeUser b del =>
    match noticeUser g b with
    | some g => some (g, .noticeUser b del)
    | none => some (g, .free del)
  | .free del => some (del.elim g (free · g), .done)
  | .done => none

/-- The expiry pass of dns_task over the age list; with the domains to free. -/
def expire (cut : TimeVal) : List Nat → DnsPrivate Q A → List Nat → Option (DnsPrivate Q A × List Nat)
  | [], g, dels => some (g, dels)
  | d :: rest, g, dels => do
    let dom := g.domains d
    let addrs ← dom.pAddrs
    if compareTv addrs.tv cut ≤ 0 then
      let g := ageDel d g
      if dom.status = domainQuery2 then expire cut rest (hashDel d g) (d :: dels)
      else expire cut rest (g.setDomain d { dom with status := dom.status - domainQuery2 }) dels
    else some (g, dels)

inductive TaskPc where
  | readCares
  | casCares (list : Option Nat)
  | walk (list : Option Nat)
  | second (domain : Nat)
  | link (domain : Nat)
  | expire
  | free (dels : List Nat)
deriving DecidableEq

/-- The first of the two ares_gethostbyname of a visit, or the second one. -/
def lookUp (grant : Grant) (d : Nat) (g : DnsPrivate Q A) : DnsPrivate Q A :=
  if grant = .atVisit then g.grant d 1 else g

/-- A step of dns_task. -/
def taskStep (grant : Grant) (a : Answer) (g : DnsPrivate Q A) : TaskPc → Option (DnsPrivate Q A × TaskPc)
  | .readCares => some (g, .casCares g.pAddCares)
  | .casCares list =>
    if g.pAddCares = list then some ({ g with pAddCares := none }, .walk list)
    else some (g, .readCares)
  | .walk none => some (g, .expire)
  | .walk (some d) =>
    some (lookUp grant d { g with visits := Function.update g.visits d (g.visits d + 1) },
      .second d)
  | .second d => some (lookUp grant d g, .link d)
  | .link d => some (g, .walk (g.domains d).next)
  | .expire =>
    (expire ⟨a.now.tvSec - dnsTimeoutS, a.now.tvUsec⟩ g.age g []).map fun r => (r.1, .free r.2)
  | .free [] => some (g, .readCares)
  | .free (d :: dels) => some (free d g, .free dels)

inductive Call (Q A : Type) where
  | get (call : Get Q A)
  | cancel (query : Q) (pc : CancelPc)
  | callback (domain : Nat) (addrs : Option (Addrs A)) (pc : CallbackPc)
  | task (pc : TaskPc)
deriving DecidableEq

/-- What starts: a call of moon_getaddrinfo with whether p_data and domain are given, the
cancel_query of a pipe that is closed, a callback, or dns_task. -/
inductive Event (Q A : Type) where
  | get (given : Bool) (query : Q) (host : Host A) (clearCache dontUseCache : Bool)
      (tv : Option TimeVal)
  | cancel (query : Q)
  | callback (domain : Nat) (addrs : Option (Addrs A))
  | task

/-- A pipe is given to one call of moon_getaddrinfo. Its listener is told to close once,
after init_done and if its point reference is set. -/
def start : Event Q A → DnsPrivate Q A → Option (DnsPrivate Q A × Call Q A)
  | .get given q host clearCache dontUseCache tv, g =>
    let query := g.queries q
    let call : Get Q A :=
      ⟨q, host, clearCache, dontUseCache, tv, none, none, false, false, true, .lock⟩
    if query.used then none
    else if given then some (g.setQuery q { query with used := true }, .get call)
    else some (g.setQuery q { query with used := true, initDone := true },
      .get { call with pc := .done (-1) })
  | .cancel q, g =>
    let query := g.queries q
    if query.initDone ∧ query.pDomain.isSome ∧ ¬ query.closed then
      some (g.setQuery q { query with closed := true }, .cancel q .look)
    else none
  | .callback d addrs, g =>
    if g.lookups d = 0 then none
    else some ({ g with lookups := Function.update g.lookups d (g.lookups d - 1) },
      .callback d addrs .lock)
  | .task, g => if g.started then none else some ({ g with started := true }, .task .readCares)

def step (grant : Grant) (a : Answer) (g : DnsPrivate Q A) : Call Q A → Option (DnsPrivate Q A × Call Q A)
  | .get c => (getStep grant a g c).map fun r => (r.1, .get r.2)
  | .cancel q pc => (cancelStep g q pc).map fun r => (r.1, .cancel q r.2)
  | .callback d addrs pc => (callbackStep a g d addrs pc).map fun r => (r.1, .callback d addrs r.2)
  | .task pc => (taskStep grant a g pc).map fun r => (r.1, .task r.2)

end

/-- The cache with its callers, c-ares and dns_task. -/
def dns (Q A : Type) [DecidableEq Q] (grant : Grant) :
    Program (DnsPrivate Q A) (Call Q A) (Event Q A) Answer where
  start := start
  step := step grant

end MoonInWater.Dns
