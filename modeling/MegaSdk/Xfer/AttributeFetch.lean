import MegaSdk.Api.BackoffTimer
import MegaSdk.Lib.KeyedLists
import MegaSdk.Lib.Runs
import MegaSdk.Xfer.AttributeText
import MegaSdk.Xfer.FileAttributes

/-!
# File attribute fetches over whole runs

`getfa`, `faf_failed`, `abortbackoff`, `disconnect` and `logout` of megaclient.cpp and its treatment
of `fafcs` in `exec`, `CommandGetFA` and `FileAttributeFetchChannel::dispatch`: the application asks
for attributes, each cluster has a channel, a channel asks the API for an URL, posts the handles of
its fetches to it, parses what arrives, and tries again after a failure. Each fetch that was
accepted gets one answer, and as long as it has none there is a channel that works on it.
-/

namespace MegaSdk.Xfer

open Api KeyedLists Runs ByteOrder Crypto

namespace Fetching

/-- A `FileAttributeFetchChannel` with its `HttpReq`; `live` says whether it has a connection. -/
structure Channel where
  fahref : UInt64
  bt : BackoffTimer
  status : ReqStatus
  live : Bool
  out : Bytes
  posturl : Bytes
  input : Bytes
  contentlength : Int
  completed : Nat

def Channel.new (fah : UInt64) : Channel where
  fahref := fah
  bt := .reset
  status := .ready
  live := false
  out := []
  posturl := []
  input := []
  contentlength := 0
  completed := 0

/-- A new request, and whether there is a connection for it. -/
def Channel.post (out posturl : Bytes) (postOk : Bool) (c : Channel) : Channel :=
  { c with
    out := out
    completed := 0
    posturl := posturl
    input := []
    contentlength := -1
    live := postOk
    status := if postOk then .inflight else .failure }

/-- The end of a request in `doio`. -/
def Channel.finish (httpstatus : Nat) (c : Channel) : Channel :=
  { c with
    live := false
    status := if httpstatus = 200 ∧ c.contentlength = c.input.length then .success else .failure }

/-- `requested` are the `CommandGetFA`s without a result, by cluster. By their tags, `created` are
the fetches that `getfa` ever added, `answered` those that the application got its last call for,
and `cancelled` those that it gave up itself. Nothing happens after a read outside of the data. -/
structure State where
  fafs : List (UInt64 × FileAttributeFetch)
  fafcs : List (Int × Channel)
  requested : List (Int × UInt64)
  reports : List FaReport
  created : List Int
  answered : List Int
  cancelled : List Int
  faulted : Bool

/-- `dispatched` is what the constructor of a fetch leaves uninitialised. -/
inductive Event where
  | getfa (fileattrstring : Bytes) (nodehandle : UInt64) (t : UInt16) (cancel : Bool) (reqtag : Int)
      (dispatched : Bool)
  | exec (client : FaClient) (ds : DsTime)
  | procresult (part : Int) (p : Option Bytes) (postOk : Bool)
  | header (part : Int) (contentlength : Int)
  | put (part : Int) (data : Bytes)
  | ended (part : Int) (httpstatus : Nat)
  | wait (ds nds : DsTime)
  | abortbackoff (ds : DsTime)
  | disconnect
  | logout

def start : State := ⟨[], [], [], [], [], [], [], false⟩

/-- The fetch whose last call this is, if the application gives up when it says so. -/
def final (client : FaClient) : FaReport → Option Int
  | .complete _ _ _ tag => some tag
  | .failed node type retries tag => if client.giveup node type retries then some tag else none

def tags (fafs : List (UInt64 × FileAttributeFetch)) : List Int := fafs.map fun e => e.2.tag

namespace State

variable (s : State)

/-- `fafcs[c]`. -/
def channel (c : Int) (fah : UInt64) : State :=
  match find c s.fafcs with
  | none => { s with fafcs := place c (.new fah) s.fafcs }
  | some _ => { s with fafcs := change c (fun x => { x with fahref := fah }) s.fafcs }

def getfa (fileattrstring : Bytes) (nodehandle : UInt64) (t : UInt16) (cancel : Bool)
    (reqtag : Int) (dispatched : Bool) : State :=
  match locatefa fileattrstring t with
  | none => s
  | some (c, fah) =>
    if cancel then
      match find fah s.fafs with
      | none => s
      | some f => { s with fafs := erase fah s.fafs, cancelled := s.cancelled ++ [f.tag] }
    else
      let s := s.channel c fah
      match find fah s.fafs with
      | none =>
        { s with
          fafs := place fah ⟨nodehandle, t, c, dispatched, 0, reqtag⟩ s.fafs
          created := s.created ++ [reqtag] }
      | some _ => s

/-- The fetches after a treatment and the calls that it made. -/
def settle (client : FaClient) (fafs : List (UInt64 × FileAttributeFetch))
    (calls : List FaReport) : State :=
  { s with
    fafs := fafs
    reports := s.reports ++ calls
    answered := s.answered ++ calls.filterMap (final client) }

/-- `parse`, called for a channel. -/
def parse (client : FaClient) (fac : Int) (last : Bool) (c : Channel) :
    Except FaFault (Channel × State) :=
  match Xfer.parse client fac last ⟨c.input, c.completed, s.fafs, []⟩ with
  | .error fault => .error fault
  | .ok r =>
    .ok ({ c with input := r.data, completed := r.completed }, s.settle client r.fafs r.reports)

/-- `faf_failed`. -/
def failed (client : FaClient) (fac : Int) : State :=
  let r := fafFailed client fac ⟨[], 0, s.fafs, []⟩
  s.settle client r.fafs r.reports

/-- What `exec` does for the state of a request. -/
def poll (client : FaClient) (ds : DsTime) (fac : Int) (c : Channel) :
    Except FaFault (Channel × State) :=
  match c.status with
  | .inflight => s.parse client fac false c
  | .success =>
    match s.parse client fac true c with
    | .error fault => .error fault
    | .ok (c, s) => .ok ({ c with bt := .reset }, s)
  | .failure => .ok ({ c with bt := c.bt.backoff ds }, s.failed client fac)
  | _ => .ok (c, s)

def advance (ds : DsTime) (fac : Int) (c : Channel) : State :=
  if c.status ≠ .inflight ∧ c.bt.armed ds then
    if s.fafs.any fun e => e.2.fac = fac then
      { s with
        fafcs := change fac (fun _ => { c with status := .inflight }) s.fafcs
        requested := s.requested ++ [(fac, c.fahref)] }
    else { s with fafcs := erase fac s.fafcs }
  else { s with fafcs := change fac (fun _ => c) s.fafcs }

/-- A round of the loop over `fafcs`. -/
def visit (client : FaClient) (ds : DsTime) (s : State) (fac : Int) : Except FaFault State :=
  match find fac s.fafcs with
  | none => .ok s
  | some c =>
    match s.poll client ds fac c with
    | .error fault => .error fault
    | .ok (c, s) => .ok (s.advance ds fac c)

/-- `exec`, as far as file attributes are fetched. -/
def exec (client : FaClient) (ds : DsTime) : State :=
  match (keys s.fafcs).foldlM (visit client ds) s with
  | .error _ => { s with faulted := true }
  | .ok s => s

/-- `dispatch`, and `post` with or without success. -/
def dispatch (fac : Int) (targeturl : Bytes) (postOk : Bool) : State :=
  let pending := s.fafs.filter fun e => e.2.fac = fac
  { s with
    fafs := s.fafs.map fun e =>
      if e.2.fac = fac then (e.1, { e.2 with dispatched := true }) else e
    fafcs := change fac
      (Channel.post (pending.flatMap fun e => leBytes 8 e.1.toNat) targeturl postOk) s.fafcs }

/-- `CommandGetFA::procresult`, with the URL if there is one. -/
def procresult (part : Int) (p : Option Bytes) (postOk : Bool) : State :=
  if part ∈ keys s.requested then
    let s := { s with requested := erase part s.requested }
    match find part s.fafcs with
    | none => s
    | some _ =>
      match p with
      | none => { s with fafcs := change part (fun c => { c with status := .failure }) s.fafcs }
      | some url => s.dispatch part url postOk
  else s

def connection (part : Int) (f : Channel → Channel) : State :=
  { s with fafcs := change part (fun c => if c.live then f c else c) s.fafcs }

/-- The timers of the channels without a request in flight. -/
def timers (f : BackoffTimer → BackoffTimer) : State :=
  { s with
    fafcs := s.fafcs.map fun e =>
      if e.2.status = .inflight then e else (e.1, { e.2 with bt := f e.2.bt }) }

def disconnect : State :=
  { s with
    fafcs := s.fafcs.map fun e =>
      if e.2.live then (e.1, { e.2 with live := false, status := .failure }) else e }

def logout : State :=
  { s with
    fafs := []
    fafcs := []
    requested := []
    cancelled := s.cancelled ++ tags s.fafs }

def step (s : State) (e : Event) : State :=
  if s.faulted then s
  else
    match e with
    | .getfa fileattrstring nodehandle t cancel reqtag dispatched =>
      s.getfa fileattrstring nodehandle t cancel reqtag dispatched
    | .exec client ds => s.exec client ds
    | .procresult part p postOk => s.procresult part p postOk
    | .header part n => s.connection part fun c => { c with contentlength := n }
    | .put part data => s.connection part fun c => { c with input := c.input ++ data }
    | .ended part httpstatus => s.connection part (Channel.finish httpstatus)
    | .wait ds nds => s.timers fun bt => (bt.update ds nds).2
    | .abortbackoff ds => s.timers fun bt => (bt.arm ds).2
    | .disconnect => s.disconnect
    | .logout => s.logout

end State

/-- What a fetch is found by, and where it is served. -/
def site (e : UInt64 × FileAttributeFetch) : UInt64 × Int := (e.1, e.2.fac)

/-- Fetches only go away with their last calls, and the others stay where they are. -/
structure Settles (client : FaClient) (c c' : FaChannel) : Prop where
  calls : ∃ new, c'.reports = c.reports ++ new ∧
    (tags c.fafs).Perm (tags c'.fafs ++ new.filterMap (final client))
  sites : (c'.fafs.map site).Sublist (c.fafs.map site)

variable {client : FaClient} {c c' c'' : FaChannel} {fac : Int}

theorem keys_eq_sites (fafs : List (UInt64 × FileAttributeFetch)) :
    keys fafs = (fafs.map site).map Prod.fst := by
  rw [keys, List.map_map]
  rfl

namespace Settles

theorem of_eq (fafs : c'.fafs = c.fafs) (reports : c'.reports = c.reports) :
    Settles client c c' where
  calls := by
    refine ⟨[], by rw [reports, List.append_nil], ?_⟩
    rw [fafs, List.filterMap_nil, List.append_nil]
  sites := by rw [fafs]

theorem trans (first : Settles client c c') (second : Settles client c' c'') :
    Settles client c c'' where
  calls := by
    obtain ⟨new, reports, same⟩ := first.calls
    obtain ⟨more, reports', same'⟩ := second.calls
    refine ⟨new ++ more, by rw [reports', reports, List.append_assoc], ?_⟩
    rw [List.filterMap_append]
    refine same.trans ((same'.append_right _).trans ?_)
    rw [List.append_assoc]
    exact List.perm_append_comm.append_left _
  sites := second.sites.trans first.sites

theorem nodup (settles : Settles client c c') (nodup : (keys c.fafs).Nodup) :
    (keys c'.fafs).Nodup := by
  rw [keys_eq_sites] at nodup ⊢
  exact nodup.sublist (settles.sites.map Prod.fst)

end Settles

/-- Each entry is kept or gets its last call. -/
theorem perm_kept_or_final
    {keep : UInt64 × FileAttributeFetch → Option (UInt64 × FileAttributeFetch)}
    {call : UInt64 × FileAttributeFetch → Option FaReport}
    (each : ∀ e, (∃ e', keep e = some e' ∧ e'.2.tag = e.2.tag ∧
        (call e).bind (final client) = none) ∨
      (keep e = none ∧ (call e).bind (final client) = some e.2.tag))
    (fafs : List (UInt64 × FileAttributeFetch)) :
    (tags fafs).Perm
      (tags (fafs.filterMap keep) ++ (fafs.filterMap call).filterMap (final client)) := by
  rw [List.filterMap_filterMap]
  induction fafs with
  | nil => exact .refl _
  | cons e fafs ih =>
    have calls : ∀ called, (call e).bind (final client) = called →
        (e :: fafs).filterMap (fun e => (call e).bind (final client)) =
          called.toList ++ fafs.filterMap fun e => (call e).bind (final client) := by
      rintro called rfl
      rw [List.filterMap_cons]
      cases (call e).bind (final client) <;> rfl
    rcases each e with ⟨e', kept, same, silent⟩ | ⟨gone, last⟩
    · rw [List.filterMap_cons_some kept, calls none silent, tags, List.map_cons, tags,
        List.map_cons, same]
      exact ih.cons _
    · rw [List.filterMap_cons_none gone, calls _ last, tags, List.map_cons]
      exact (ih.cons _).trans List.perm_middle.symm

theorem failedFetch_site {e e' : UInt64 × FileAttributeFetch}
    (kept : failedFetch client fac e = some e') : site e' = site e := by
  rw [failedFetch] at kept
  split at kept
  · cases kept
    rfl
  split at kept
  · cases kept
  · cases kept
    rfl

/-- `faf_failed` calls the application for each dispatched fetch of the cluster. -/
theorem settles_fafFailed (client : FaClient) (fac : Int) (c : FaChannel) :
    Settles client c (fafFailed client fac c) where
  calls := by
    refine ⟨_, rfl, perm_kept_or_final (fun e => ?_) c.fafs⟩
    rw [failedFetch]
    split
    · rename_i elsewhere
      exact .inl ⟨e, rfl, rfl, by simp [elsewhere]⟩
    rename_i here
    split
    · rename_i given
      rw [Bool.and_eq_true] at given
      exact .inr ⟨rfl, by simp [final, not_not.mp here, given.1, given.2]⟩
    · rename_i kept
      refine .inl ⟨_, rfl, rfl, ?_⟩
      cases dispatched : e.2.dispatched with
      | false => simp [dispatched]
      | true =>
        rw [dispatched, Bool.true_and, Bool.not_eq_true] at kept
        simp [final, kept]
  sites := by
    rw [fafFailed]
    induction c.fafs with
    | nil => exact .refl _
    | cons e fafs ih =>
      cases kept : failedFetch client fac e with
      | none =>
        rw [List.filterMap_cons_none kept, List.map_cons]
        exact ih.cons _
      | some e' =>
        rw [List.filterMap_cons_some kept, List.map_cons, List.map_cons, failedFetch_site kept]
        exact ih.cons_cons _

theorem tags_erase {fafs : List (UInt64 × FileAttributeFetch)} {h : UInt64}
    {f : FileAttributeFetch} (nodup : (keys fafs).Nodup) (found : find h fafs = some f) :
    (tags fafs).Perm (tags (erase h fafs) ++ [f.tag]) := by
  have split := (perm_erase nodup found).map fun e => e.2.tag
  exact split.trans (List.perm_append_singleton f.tag _).symm

/-- A delivery ends the fetch that it is for. -/
theorem settles_deliver (client : FaClient) {h : UInt64} {f : FileAttributeFetch}
    (nodup : (keys c.fafs).Nodup) (found : c.find h = some f) (key : Block) (fapos falen : Nat) :
    Settles client c (deliver client c h f key fapos falen) where
  calls := ⟨_, rfl, tags_erase nodup found⟩
  sites := List.filter_sublist.map site

theorem settles_parseEntry {falen : Nat} {flow : FaFlow} (nodup : (keys c.fafs).Nodup)
    (ends : parseEntry client falen c = .ok (flow, c')) : Settles client c c' := by
  rw [parseEntry] at ends
  split at ends
  · cases ends
  split at ends
  · cases ends
    exact .of_eq rfl rfl
  rename_i found
  split at ends
  · cases ends
    exact .of_eq rfl rfl
  dsimp only at ends
  split at ends
  · cases ends
    exact .of_eq rfl rfl
  split at ends
  · cases ends
    exact settles_deliver client nodup found _ _ _
  · cases ends

theorem settles_parseRound {last : Bool} {bod : Nat} {flow : FaFlow} (nodup : (keys c.fafs).Nodup)
    (ends : parseRound client last bod c = .ok (flow, c')) : Settles client c c' := by
  rw [parseRound] at ends
  split at ends
  · split at ends
    · dsimp only at ends
      split at ends
      · exact settles_parseEntry nodup ends
      · cases ends
        exact .of_eq rfl rfl
    split at ends
    · cases ends
    split at ends
    · exact settles_parseEntry nodup ends
    · cases ends
      exact .of_eq rfl rfl
  · cases ends
    exact .of_eq rfl rfl

theorem settles_parseLoop {last : Bool} {bod : Nat} {flow : FaFlow} {fuel : Nat}
    (nodup : (keys c.fafs).Nodup) (ends : parseLoop client last bod fuel c = .ok (flow, c')) :
    Settles client c c' := by
  induction fuel generalizing c with
  | zero =>
    cases ends
    exact .of_eq rfl rfl
  | succ fuel ih =>
    rw [parseLoop] at ends
    split at ends
    · rename_i round
      have first := settles_parseRound nodup round
      exact first.trans (ih (first.nodup nodup) ends)
    · exact settles_parseRound nodup ends

theorem settles_parse {last : Bool} (nodup : (keys c.fafs).Nodup)
    (ends : parse client fac last c = .ok c') : Settles client c c' := by
  have incomplete : Settles client c (if last then fafFailed client fac c else c) := by
    split
    · exact settles_fafFailed client fac c
    · exact .of_eq rfl rfl
  rw [parse] at ends
  split at ends
  · cases ends
    exact incomplete
  split at ends
  · cases ends
    exact incomplete
  split at ends
  · cases ends
  · rename_i loop
    cases ends
    exact (settles_parseLoop nodup loop).trans (settles_fafFailed client fac _)
  · rename_i loop
    cases ends
    refine (settles_parseLoop nodup loop).trans ?_
    split
    · exact settles_fafFailed client fac _
    · exact .of_eq rfl rfl

/-- A channel in flight waits for the API or for a connection, and not for both. -/
def Sound (requested : List (Int × UInt64)) (e : Int × Channel) : Prop :=
  (e.2.status = .inflight ↔ e.1 ∈ keys requested ∨ e.2.live) ∧ (e.2.live → e.1 ∉ keys requested)

structure Inv (s : State) : Prop where
  nodup : (keys s.fafs).Nodup
  channels : (keys s.fafcs).Nodup
  balanced : s.created.Perm (tags s.fafs ++ (s.answered ++ s.cancelled))
  housed : ∀ e ∈ s.fafs, e.2.fac ∈ keys s.fafcs
  once : (keys s.requested).Nodup
  known : ∀ fac ∈ keys s.requested, fac ∈ keys s.fafcs
  sound : ∀ e ∈ s.fafcs, Sound s.requested e

variable {s s' : State}

theorem keys_map {Key Value Other : Type} {g : Key × Value → Key × Other}
    (same : ∀ e, (g e).1 = e.1) (l : List (Key × Value)) : keys (l.map g) = keys l := by
  rw [keys, keys, List.map_map]
  exact List.map_congr_left fun e _ => same e

namespace Inv

theorem start : Inv Fetching.start where
  nodup := List.nodup_nil
  channels := List.nodup_nil
  balanced := .refl _
  housed _ mem := nomatch mem
  once := List.nodup_nil
  known _ mem := nomatch mem
  sound _ mem := nomatch mem

/-- The channels are changed where they are. -/
theorem map_channels (inv : Inv s) {requested : List (Int × UInt64)}
    {g : Int × Channel → Int × Channel} (same : ∀ e, (g e).1 = e.1)
    (once : (keys requested).Nodup) (known : ∀ fac ∈ keys requested, fac ∈ keys s.fafcs)
    (sound : ∀ e ∈ s.fafcs, Sound requested (g e)) :
    Inv { s with requested := requested, fafcs := s.fafcs.map g } where
  nodup := inv.nodup
  channels := by
    rw [keys_map same]
    exact inv.channels
  balanced := inv.balanced
  housed e mem := by
    rw [keys_map same]
    exact inv.housed e mem
  once := once
  known fac mem := by
    rw [keys_map same]
    exact known fac mem
  sound := List.forall_mem_map.mpr sound

/-- Fetches that are no longer pending are in the account. -/
theorem perm_moved {created pending pending' settled new : List Int}
    (balanced : created.Perm (pending ++ settled)) (same : pending.Perm (pending' ++ new)) :
    created.Perm (pending' ++ (settled ++ new)) := by
  refine balanced.trans ((same.append_right settled).trans ?_)
  rw [List.append_assoc]
  exact List.perm_append_comm.append_left _

/-- What a treatment does to the fetches keeps the account. -/
theorem settle (inv : Inv s) {fafs : List (UInt64 × FileAttributeFetch)} {calls : List FaReport}
    (sites : (fafs.map site).Sublist (s.fafs.map site))
    (same : (tags s.fafs).Perm (tags fafs ++ calls.filterMap (final client))) :
    Inv (s.settle client fafs calls) where
  nodup := by
    rw [keys_eq_sites]
    have nodup := inv.nodup
    rw [keys_eq_sites] at nodup
    exact nodup.sublist (sites.map Prod.fst)
  channels := inv.channels
  balanced := by
    refine (perm_moved inv.balanced same).trans (List.Perm.append_left _ ?_)
    rw [List.append_assoc, State.settle, List.append_assoc]
    exact List.perm_append_comm.append_left _
  housed e mem := by
    have there : site e ∈ s.fafs.map site := sites.subset (List.mem_map_of_mem mem)
    obtain ⟨old, here, sameSite⟩ := List.mem_map.mp there
    have cluster : old.2.fac = e.2.fac := congrArg Prod.snd sameSite
    exact cluster ▸ inv.housed old here
  once := inv.once
  known := inv.known
  sound := inv.sound

end Inv

theorem parse_spec {last : Bool} {c c' : Channel} (nodup : (keys s.fafs).Nodup)
    (ends : s.parse client fac last c = .ok (c', s')) :
    c'.status = c.status ∧ c'.live = c.live ∧ ∃ fafs calls, s' = s.settle client fafs calls ∧
      (fafs.map site).Sublist (s.fafs.map site) ∧
      (tags s.fafs).Perm (tags fafs ++ calls.filterMap (final client)) := by
  rw [State.parse] at ends
  split at ends
  · cases ends
  · rename_i r parsed
    cases ends
    have settles := settles_parse nodup parsed
    obtain ⟨new, reports, same⟩ := settles.calls
    rw [List.nil_append] at reports
    subst reports
    exact ⟨rfl, rfl, _, _, rfl, settles.sites, same⟩

theorem failed_spec (client : FaClient) (fac : Int) (s : State) :
    ∃ fafs calls, s.failed client fac = s.settle client fafs calls ∧
      (fafs.map site).Sublist (s.fafs.map site) ∧
      (tags s.fafs).Perm (tags fafs ++ calls.filterMap (final client)) := by
  have settles := settles_fafFailed client fac ⟨[], 0, s.fafs, []⟩
  obtain ⟨new, reports, same⟩ := settles.calls
  rw [List.nil_append] at reports
  subst reports
  exact ⟨_, _, rfl, settles.sites, same⟩

/-- The treatment of a channel leaves its state to `advance`, and the other channels alone. -/
theorem poll_spec {ds : DsTime} {c c' : Channel} (inv : Inv s)
    (ends : s.poll client ds fac c = .ok (c', s')) :
    Inv s' ∧ s'.fafcs = s.fafcs ∧ s'.requested = s.requested ∧ c'.status = c.status ∧
      c'.live = c.live := by
  rw [State.poll] at ends
  split at ends
  · obtain ⟨status, live, fafs, calls, rfl, sites, same⟩ := parse_spec inv.nodup ends
    exact ⟨inv.settle sites same, rfl, rfl, status, live⟩
  · split at ends
    · cases ends
    rename_i parsed
    cases ends
    obtain ⟨status, live, fafs, calls, rfl, sites, same⟩ := parse_spec inv.nodup parsed
    exact ⟨inv.settle sites same, rfl, rfl, status, live⟩
  · cases ends
    obtain ⟨fafs, calls, result, sites, same⟩ := failed_spec client fac s
    rw [result]
    exact ⟨inv.settle sites same, rfl, rfl, rfl, rfl⟩
  · cases ends
    exact ⟨inv, rfl, rfl, rfl, rfl⟩

/-- The fetches of a cluster have a request in flight, or its timer is not armed. -/
def Waits (ds : DsTime) (s : State) (fac : Int) : Prop :=
  ∀ c, (fac, c) ∈ s.fafcs → c.status = .inflight ∨ c.bt.armed ds = false

namespace Inv

theorem advance {ds : DsTime} {old c : Channel} (inv : Inv s) (found : find fac s.fafcs = some old)
    (status : c.status = old.status) (live : c.live = old.live) : Inv (s.advance ds fac c) := by
  have mem := mem_of_find found
  have sound : Sound s.requested (fac, c) := by
    have before := inv.sound _ mem
    rw [Sound, status, live]
    exact before
  have put : ∀ e : Int × Channel, (if e.1 = fac then (e.1, c) else e).1 = e.1 := by
    intro e
    split <;> rfl
  rw [State.advance]
  split
  · rename_i ready
    have unrequested : fac ∉ keys s.requested := fun here => ready.1 (sound.1.mpr (.inl here))
    split
    · have next : keys (s.requested ++ [(fac, c.fahref)]) = keys s.requested ++ [fac] := by
        rw [keys, List.map_append]
        rfl
      have put : ∀ e : Int × Channel,
          (if e.1 = fac then (e.1, { c with status := .inflight }) else e).1 = e.1 := by
        intro e
        split <;> rfl
      refine inv.map_channels put ?_ (fun k here => ?_) (fun e here => ?_)
      · rw [next, List.nodup_append]
        refine ⟨inv.once, List.nodup_singleton fac, fun a mem b single => ?_⟩
        rw [List.mem_singleton.mp single]
        exact fun same => unrequested (same ▸ mem)
      · rw [next, List.mem_append, List.mem_singleton] at here
        rcases here with here | rfl
        · exact inv.known k here
        · exact mem_keys mem
      · have idle : c.live = false := by
          cases alive : c.live with
          | false => rfl
          | true => exact absurd (sound.1.mpr (.inr alive)) ready.1
        rw [Sound, next]
        split
        · rename_i same
          simp [same, idle]
        · rename_i other
          have before := inv.sound e here
          simpa [Sound, other] using before
    · rename_i unused
      rw [List.any_eq_true] at unused
      exact
        { nodup := inv.nodup
          channels := inv.channels.sublist (keys_erase fac s.fafcs)
          balanced := inv.balanced
          housed := by
            intro e here
            obtain ⟨entry, there, same⟩ := List.mem_map.mp (inv.housed e here)
            refine List.mem_map.mpr ⟨entry, mem_erase.mpr ⟨there, fun cluster => ?_⟩, same⟩
            exact unused ⟨e, here, decide_eq_true (same.symm.trans cluster)⟩
          once := inv.once
          known := by
            intro k here
            obtain ⟨entry, there, same⟩ := List.mem_map.mp (inv.known k here)
            refine List.mem_map.mpr ⟨entry, mem_erase.mpr ⟨there, fun cluster => ?_⟩, same⟩
            exact unrequested (cluster ▸ same ▸ here)
          sound := fun e here => inv.sound e (mem_erase.mp here).1 }
  · refine inv.map_channels put inv.once inv.known fun e here => ?_
    split
    · rename_i same
      exact same ▸ sound
    · exact inv.sound e here

theorem visit {ds : DsTime} (inv : Inv s) (visits : s.visit client ds fac = .ok s') : Inv s' := by
  rw [State.visit] at visits
  split at visits
  · cases visits
    exact inv
  rename_i found
  split at visits
  · cases visits
  rename_i polled
  cases visits
  obtain ⟨inv', fafcs, -, status, live⟩ := poll_spec inv polled
  rw [← fafcs] at found
  exact inv'.advance found status live

end Inv

theorem mem_advance {ds : DsTime} {k : Int} {c d : Channel}
    (mem : (k, d) ∈ (s.advance ds fac c).fafcs) :
    (k ≠ fac ∧ (k, d) ∈ s.fafcs) ∨ (k = fac ∧ (d.status = .inflight ∨ d.bt.armed ds = false)) := by
  have split_change : ∀ {x : Channel}, (k, d) ∈ change fac (fun _ => x) s.fafcs →
      (k ≠ fac ∧ (k, d) ∈ s.fafcs) ∨ (k = fac ∧ d = x) := by
    intro x here
    have here := mem_change.mp here
    split at here
    · rename_i same
      obtain ⟨_, _, value⟩ := here
      exact .inr ⟨same, value⟩
    · rename_i apart
      exact .inl ⟨apart, here⟩
  rw [State.advance] at mem
  split at mem
  · split at mem
    · refine (split_change mem).imp_right fun here => ⟨here.1, .inl ?_⟩
      rw [here.2]
    · exact .inl (mem_erase.mp mem).symm
  · rename_i busy
    rw [not_and_or, not_not, Bool.not_eq_true] at busy
    refine (split_change mem).imp_right fun here => ⟨here.1, ?_⟩
    rw [here.2]
    exact busy

theorem waits_visit {ds : DsTime} {other : Int} (inv : Inv s)
    (visits : s.visit client ds fac = .ok s') (before : other ≠ fac → Waits ds s other) :
    Waits ds s' other := by
  rw [State.visit] at visits
  split at visits
  · rename_i absent
    cases visits
    by_cases here : other = fac
    · intro c mem
      exact absurd (mem_keys mem) (here ▸ not_mem_of_find absent)
    · exact before here
  split at visits
  · cases visits
  rename_i polled
  cases visits
  obtain ⟨-, fafcs, -⟩ := poll_spec inv polled
  intro c mem
  rcases mem_advance mem with ⟨apart, there⟩ | ⟨-, waits⟩
  · exact before apart c (fafcs ▸ there)
  · exact waits

/-- After `exec` the channels wait for the API, for a connection or for a timer. -/
theorem exec_spec {ds : DsTime} (inv : Inv s) (client : FaClient) :
    Inv (s.exec client ds) ∧
      ((s.exec client ds).faulted = true ∨ ∀ fac, Waits ds (s.exec client ds) fac) := by
  rw [State.exec]
  split
  · exact ⟨⟨inv.nodup, inv.channels, inv.balanced, inv.housed, inv.once, inv.known, inv.sound⟩,
      .inl rfl⟩
  · rename_i ends
    have keeps : ∀ s fac s', Inv s → s.visit client ds fac = .ok s' → Inv s' :=
      fun s fac s' inv visits => inv.visit visits
    have does : ∀ s fac s', Inv s → s.visit client ds fac = .ok s' → Waits ds s' fac :=
      fun s fac s' inv visits => waits_visit inv visits fun apart => absurd rfl apart
    have visited := visit_all keeps does
      (fun s fac s' other inv visits _ waits => waits_visit inv visits fun _ => waits) inv ends
    refine ⟨visited.1, .inr fun fac => visited.2 fac ?_⟩
    by_cases here : fac ∈ keys s.fafcs
    · exact .inl here
    · exact .inr fun c mem => absurd (mem_keys mem) here

namespace Inv

theorem channel (inv : Inv s) (c : Int) (fah : UInt64) : Inv (s.channel c fah) := by
  rw [State.channel]
  split
  · rename_i absent
    have new := not_mem_of_find absent
    exact
      { nodup := inv.nodup
        channels := nodup_place inv.channels new
        balanced := inv.balanced
        housed := fun e here => by
          obtain ⟨x, there, same⟩ := List.mem_map.mp (inv.housed e here)
          exact same ▸ mem_keys (mem_place.mpr (.inr there))
        once := inv.once
        known := fun fac here => by
          obtain ⟨x, there, same⟩ := List.mem_map.mp (inv.known fac here)
          exact same ▸ mem_keys (mem_place.mpr (.inr there))
        sound := fun e here => by
          rcases mem_place.mp here with same | old
          · have unrequested : c ∉ keys s.requested := fun there => new (inv.known c there)
            simp [same, Sound, Channel.new, unrequested]
          · exact inv.sound e old }
  · refine inv.map_channels (fun e => ?_) inv.once inv.known fun e here => ?_
    · split <;> rfl
    · have before := inv.sound e here
      split
      · exact before
      · exact before

theorem mem_channel (s : State) (c : Int) (fah : UInt64) : c ∈ keys (s.channel c fah).fafcs := by
  rw [State.channel]
  split
  · exact mem_keys (mem_place.mpr (.inl rfl))
  · rename_i found
    rw [keys_change]
    exact mem_keys (mem_of_find found)

theorem getfa (inv : Inv s) (fileattrstring : Bytes) (nodehandle : UInt64) (t : UInt16)
    (cancel : Bool) (reqtag : Int) (dispatched : Bool) :
    Inv (s.getfa fileattrstring nodehandle t cancel reqtag dispatched) := by
  rw [State.getfa]
  split
  · exact inv
  rename_i c fah located
  split
  · split
    · exact inv
    rename_i f found
    exact
      { nodup := inv.nodup.sublist (keys_erase fah s.fafs)
        channels := inv.channels
        balanced := by
          rw [← List.append_assoc s.answered]
          exact perm_moved inv.balanced (tags_erase inv.nodup found)
        housed := fun e here => inv.housed e (mem_erase.mp here).1
        once := inv.once
        known := inv.known
        sound := inv.sound }
  · have inv' := inv.channel c fah
    dsimp only
    split
    · rename_i absent
      have added := (perm_place fah ⟨nodehandle, t, c, dispatched, 0, reqtag⟩
        (s.channel c fah).fafs).map fun e => e.2.tag
      exact
        { nodup := nodup_place inv'.nodup (not_mem_of_find absent)
          channels := inv'.channels
          balanced := by
            refine (List.perm_append_singleton reqtag _).trans ?_
            refine (inv'.balanced.cons reqtag).trans ?_
            rw [← List.cons_append]
            exact added.symm.append_right _
          housed := fun e here => by
            rcases mem_place.mp here with same | old
            · exact same ▸ mem_channel s c fah
            · exact inv'.housed e old
          once := inv'.once
          known := inv'.known
          sound := inv'.sound }
    · exact inv'

/-- Marking fetches as dispatched leaves them what they are. -/
theorem map_fafs (inv : Inv s)
    {g : UInt64 × FileAttributeFetch → UInt64 × FileAttributeFetch}
    (sites : ∀ e, site (g e) = site e) (sameTags : ∀ e, (g e).2.tag = e.2.tag) :
    Inv { s with fafs := s.fafs.map g } where
  nodup := by
    have same : ∀ e, (g e).1 = e.1 := fun e => (Prod.mk.inj (sites e)).1
    rw [keys_map same]
    exact inv.nodup
  channels := inv.channels
  balanced := by
    have same : tags (s.fafs.map g) = tags s.fafs := by
      rw [tags, tags, List.map_map]
      exact List.map_congr_left fun e _ => sameTags e
    rw [same]
    exact inv.balanced
  housed := List.forall_mem_map.mpr fun e here => by
    have same : (g e).2.fac = e.2.fac := (Prod.mk.inj (sites e)).2
    rw [same]
    exact inv.housed e here
  once := inv.once
  known := inv.known
  sound := inv.sound

/-- A result of the API ends the wait for it. -/
theorem answer (inv : Inv s) (part : Int) {f : Channel → Channel}
    (flight : ∀ c, (part, c) ∈ s.fafcs → ((f c).status = .inflight ↔ (f c).live)) :
    Inv { s with requested := erase part s.requested, fafcs := change part f s.fafcs } := by
  have rest : ∀ k, k ∈ keys (erase part s.requested) ↔ k ∈ keys s.requested ∧ k ≠ part := by
    intro k
    constructor
    · intro here
      obtain ⟨e, there, rfl⟩ := List.mem_map.mp here
      have there := mem_erase.mp there
      exact ⟨mem_keys there.1, there.2⟩
    · rintro ⟨here, apart⟩
      obtain ⟨e, there, rfl⟩ := List.mem_map.mp here
      exact mem_keys (mem_erase.mpr ⟨there, apart⟩)
  refine inv.map_channels (fun e => ?_) (inv.once.sublist (keys_erase part s.requested))
    (fun k here => inv.known k ((rest k).mp here).1) fun e here => ?_
  · split <;> rfl
  · have before := inv.sound e here
    split
    · rename_i same
      simp [Sound, rest, same, flight e.2 (same ▸ here)]
    · rename_i apart
      simpa [Sound, rest, apart] using before

theorem procresult (inv : Inv s) (part : Int) (p : Option Bytes) (postOk : Bool) :
    Inv (s.procresult part p postOk) := by
  rw [State.procresult]
  split
  · rename_i requested
    dsimp only
    split
    · rename_i absent
      exact absurd (inv.known part requested) (not_mem_of_find absent)
    split
    · refine inv.answer part fun c here => ?_
      have idle : c.live = false := by
        cases alive : c.live with
        | false => rfl
        | true => exact absurd requested ((inv.sound _ here).2 alive)
      simp [idle]
    · rename_i url
      have posted := inv.answer part (f := Channel.post
          ((s.fafs.filter fun e => e.2.fac = part).flatMap fun e => leBytes 8 e.1.toNat) url postOk)
        fun c _ => by cases postOk <;> simp [Channel.post]
      refine posted.map_fafs (fun e => ?_) (fun e => ?_) <;> split <;> rfl
  · exact inv

/-- Channels whose state and connection stay as they are. -/
theorem map_idle (inv : Inv s) {g : Int × Channel → Int × Channel} (same : ∀ e, (g e).1 = e.1)
    (status : ∀ e, (g e).2.status = e.2.status) (live : ∀ e, (g e).2.live = e.2.live) :
    Inv { s with fafcs := s.fafcs.map g } := by
  refine inv.map_channels same inv.once inv.known fun e here => ?_
  rw [Sound, same, status, live]
  exact inv.sound e here

/-- A connection on which something arrives stays a connection. -/
theorem connection (inv : Inv s) (part : Int) {f : Channel → Channel}
    (status : ∀ c, (f c).status = c.status) (live : ∀ c, (f c).live = c.live) :
    Inv (s.connection part f) := by
  have kept : ∀ c : Channel, (if c.live then f c else c).status = c.status ∧
      (if c.live then f c else c).live = c.live := by
    intro c
    split
    · exact ⟨status c, live c⟩
    · exact ⟨rfl, rfl⟩
  refine inv.map_idle (fun e => ?_) (fun e => ?_) (fun e => ?_) <;> split
  · rfl
  · rfl
  · exact (kept e.2).1
  · rfl
  · exact (kept e.2).2
  · rfl

/-- Connections that end. -/
theorem map_ended (inv : Inv s) {g : Int × Channel → Int × Channel} (same : ∀ e, (g e).1 = e.1)
    (ended : ∀ e, g e = e ∨ e.2.live ∧ (g e).2.live = false ∧ (g e).2.status ≠ .inflight) :
    Inv { s with fafcs := s.fafcs.map g } := by
  refine inv.map_channels same inv.once inv.known fun e here => ?_
  have before := inv.sound e here
  rcases ended e with unchanged | ⟨alive, dead, status⟩
  · rw [unchanged]
    exact before
  · simp [Sound, same, dead, status, before.2 alive]

theorem step (inv : Inv s) (e : Event) : Inv (s.step e) := by
  unfold State.step
  split
  · exact inv
  cases e with
  | getfa fileattrstring nodehandle t cancel reqtag dispatched =>
    exact inv.getfa fileattrstring nodehandle t cancel reqtag dispatched
  | exec client ds => exact (exec_spec inv client).1
  | procresult part p postOk => exact inv.procresult part p postOk
  | header part n => exact inv.connection part (fun _ => rfl) fun _ => rfl
  | put part data => exact inv.connection part (fun _ => rfl) fun _ => rfl
  | ended part httpstatus =>
    refine inv.map_ended (fun e => ?_) (fun e => ?_)
    · split <;> rfl
    · split
      · dsimp only
        split
        · rename_i alive
          refine .inr ⟨alive, rfl, ?_⟩
          rw [Channel.finish]
          dsimp only
          split <;> simp
        · exact .inl rfl
      · exact .inl rfl
  | wait ds nds =>
    refine inv.map_idle (fun e => ?_) (fun e => ?_) (fun e => ?_) <;> split <;> rfl
  | abortbackoff ds =>
    refine inv.map_idle (fun e => ?_) (fun e => ?_) (fun e => ?_) <;> split <;> rfl
  | disconnect =>
    refine inv.map_ended (fun e => ?_) (fun e => ?_)
    · split <;> rfl
    · split
      · rename_i alive
        exact .inr ⟨alive, rfl, by simp⟩
      · exact .inl rfl
  | logout =>
    exact
      { nodup := List.nodup_nil
        channels := List.nodup_nil
        balanced := by
          rw [State.logout, ← List.append_assoc s.answered]
          exact perm_moved inv.balanced (.refl _)
        housed := fun _ mem => nomatch mem
        once := List.nodup_nil
        known := fun _ mem => nomatch mem
        sound := fun _ mem => nomatch mem }

end Inv

/-- The fetches that were added are those that are pending, each of them with a channel that works
on it, those that got their last call and those that were cancelled, each of them once. -/
structure Accounted (s : State) : Prop where
  balanced : s.created.Perm (tags s.fafs ++ (s.answered ++ s.cancelled))
  served : ∀ e ∈ s.fafs, ∃ c, (e.2.fac, c) ∈ s.fafcs
  sound : ∀ e ∈ s.fafcs, Sound s.requested e
  expected : ∀ fac ∈ keys s.requested, (find fac s.fafcs).isSome

theorem Inv.accounted (inv : Inv s) : Accounted s where
  balanced := inv.balanced
  served e here := by
    obtain ⟨entry, there, same⟩ := List.mem_map.mp (inv.housed e here)
    exact ⟨entry.2, same ▸ there⟩
  sound := inv.sound
  expected fac here := by
    cases found : find fac s.fafcs with
    | none => exact absurd (inv.known fac here) (not_mem_of_find found)
    | some c => rfl

/-- In every run, whatever the application, the API and the network do, each accepted fetch gets at
most one last call, a fetch without one has a channel, `CommandGetFA::procresult` finds its channel,
and `exec` leaves no channel that could start a request. -/
theorem fetches_accounted (events : List Event) :
    Always State.step Accounted start events ∧
      ∀ client ds, (State.exec (run State.step start events) client ds).faulted ∨
        ∀ fac, Waits ds (State.exec (run State.step start events) client ds) fac := by
  have keeps : ∀ s e, Inv s → Inv (State.step s e) := fun s e inv => inv.step e
  have always := always_of_step keeps Inv.start events
  exact ⟨always.mono fun s inv => inv.accounted,
    fun client ds => (exec_spec always.at_end client).2⟩

end Fetching

end MegaSdk.Xfer
