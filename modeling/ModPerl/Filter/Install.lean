import ModPerl.Filter.Invocation

/-!
# The configured filters of a connection and of a request

The filters that are configured for a server are found twice: by the connection and by
each of its requests, whose directory configuration has inherited the list.  Which of the
two installs a filter is said by the attributes of the handler.  A filter of the server
itself, configured with `PerlSetInputFilter` or `PerlSetOutputFilter`, has no attributes;
the connection looks up its type and leaves it to the request below the level of a
protocol, but the request takes all of them.

The functions are those of `modperl_filter.c` and `modperl_cmd.c`.
-/

namespace ModPerl

/-- `handlers[i]->attrs` -/
structure FilterAttrs where
  connectionHandler : Bool
  requestHandler : Bool
  hasInitHandler : Bool
  initHandler : Bool
  httpdHandler : Bool
  deriving DecidableEq

/-- No attribute is set. -/
def FilterAttrs.none : FilterAttrs := ⟨false, false, false, false, false⟩

/-- An entry of `handlers_per_dir` for filters. -/
structure FilterEntry where
  name : Bytes
  attrs : FilterAttrs
  /-- What `modperl_run_filter_init` returns for the init handler, if one was found. -/
  next : Option Status
  deriving DecidableEq

/-- The status that the init handler comes to; where there is none it is `OK`. -/
def FilterEntry.init (h : FilterEntry) : Status :=
  if h.attrs.hasInitHandler then h.next.getD ok else ok

/-- `modperl_cmd_push_httpd_filter_handlers` -/
def pushHttpdFilterHandlers (handlers : List FilterEntry) (name : Bytes) : List FilterEntry :=
  handlers ++ [⟨name, { FilterAttrs.none with httpdHandler := true }, none⟩]

/-- `MP_FILTER_CONNECTION_OUTPUT_NAME` and `MP_FILTER_CONNECTION_INPUT_NAME` -/
def connectionName : FilterMode → Bytes
  | .output => ascii "MODPERL_CONNECTION_OUTPUT"
  | .input => ascii "MODPERL_CONNECTION_INPUT"

/-- `MP_FILTER_REQUEST_OUTPUT_NAME` and `MP_FILTER_REQUEST_INPUT_NAME` -/
def requestName : FilterMode → Bytes
  | .output => ascii "MODPERL_REQUEST_OUTPUT"
  | .input => ascii "MODPERL_REQUEST_INPUT"

/-- The filters that are registered with the server; those of mod_perl are. -/
structure FilterRegistry where
  /-- The type of the filter that `ap_get_input_filter_handle` and
  `ap_get_output_filter_handle` return for a lowercased name. -/
  filterHandle : FilterMode → Bytes → Option ℕ
  /-- `AP_FTYPE_PROTOCOL` -/
  ftypeProtocol : ℕ
  connection_isSome : ∀ mode, (filterHandle mode (caseless (connectionName mode))).isSome
  request_isSome : ∀ mode, (filterHandle mode (caseless (requestName mode))).isSome

/-- A filter in a chain.  The server keeps the names of filters in lower case. -/
structure ChainFilter where
  /-- `f->frec->name` -/
  name : Bytes
  /-- `f->ctx->handler`, of a filter of mod_perl -/
  handler : FilterEntry
  name_caseless : caseless name = name

/-- A filter that was installed: the name it was added by, and `ctx->handler`. -/
structure Installed where
  name : Bytes
  handler : Option FilterEntry
  deriving DecidableEq

namespace FilterRegistry

variable (httpd : FilterRegistry) (mode : FilterMode)

/-- `ap_add_input_filter` and `ap_add_output_filter` add the filter that has the name, if
there is one. -/
def addfunc (name : Bytes) (handler : Option FilterEntry) : List Installed :=
  if (httpd.filterHandle mode (caseless name)).isSome then [⟨name, handler⟩] else []

/-- The loop of `modperl_filter_add_connection`: the filters it installs and its status. -/
def addConnectionLoop : List FilterEntry → List Installed × Status
  | [] => ([], ok)
  | h :: handlers =>
      if h.attrs.httpdHandler then
        let skip := match httpd.filterHandle mode (caseless h.name) with
          | some ftype => decide (ftype < httpd.ftypeProtocol)
          | none => false
        if skip then addConnectionLoop handlers
        else
          let (installed, rc) := addConnectionLoop handlers
          (httpd.addfunc mode h.name none ++ installed, rc)
      else if !h.attrs.connectionHandler then addConnectionLoop handlers
      else
        let f := httpd.addfunc mode (connectionName mode) (some h)
        if h.init ≠ ok then (f, h.init)
        else
          let (installed, rc) := addConnectionLoop handlers
          (f ++ installed, rc)

/-- `modperl_filter_add_connection` -/
def addConnection (av : Option (List FilterEntry)) : List Installed × Status :=
  match av with
  | some handlers => httpd.addConnectionLoop mode handlers
  | none => ([], declined)

variable (equal : FilterEntry → FilterEntry → Bool) (filters : List ChainFilter)

/-- The filter is found in the chain as one of mod_perl with an equal handler. -/
def registered (h : FilterEntry) : Bool :=
  filters.any fun f =>
    f.name.head? = some 77 && f.name = requestName mode && equal f.handler h

/-- The loop of `modperl_filter_add_request`. -/
def addRequestLoop : List FilterEntry → List Installed × Status
  | [] => ([], ok)
  | h :: handlers =>
      if h.attrs.httpdHandler then
        let (installed, rc) := addRequestLoop handlers
        (httpd.addfunc mode h.name none ++ installed, rc)
      else if h.attrs.connectionHandler then addRequestLoop handlers
      else if registered mode equal filters h then addRequestLoop handlers
      else
        let f := httpd.addfunc mode (requestName mode) (some h)
        if h.init ≠ ok then (f, h.init)
        else
          let (installed, rc) := addRequestLoop handlers
          (f ++ installed, rc)

/-- `modperl_filter_add_request` -/
def addRequest (av : Option (List FilterEntry)) : List Installed × Status :=
  match av with
  | some handlers => httpd.addRequestLoop mode equal filters handlers
  | none => ([], declined)

/-! ## Entries of the connection and of the request -/

/-- The entry is a filter of the server of this type. -/
def HasType (h : FilterEntry) (P : ℕ → Prop) : Prop :=
  ∃ ftype, httpd.filterHandle mode (caseless h.name) = some ftype ∧ P ftype

instance (h : FilterEntry) (P : ℕ → Prop) [DecidablePred P] :
    Decidable (httpd.HasType mode h P) :=
  match heq : httpd.filterHandle mode (caseless h.name) with
  | none => isFalse fun ⟨ftype, h, _⟩ => by rw [heq] at h; cases h
  | some ftype =>
      decidable_of_iff (P ftype)
        ⟨fun hP => ⟨ftype, heq, hP⟩, fun ⟨ftype', h, hP⟩ => by
          rw [heq] at h
          exact Option.some.inj h ▸ hP⟩

/-- A handler with the attribute, or a filter of the server from `AP_FTYPE_PROTOCOL` on. -/
def ConnectionLevel (h : FilterEntry) : Prop :=
  if h.attrs.httpdHandler then httpd.HasType mode h (httpd.ftypeProtocol ≤ ·)
  else h.attrs.connectionHandler = true

/-- A handler without the attribute, or a filter of the server below
`AP_FTYPE_PROTOCOL`. -/
def RequestLevel (h : FilterEntry) : Prop :=
  if h.attrs.httpdHandler then httpd.HasType mode h (· < httpd.ftypeProtocol)
  else h.attrs.connectionHandler = false

instance : DecidablePred (httpd.ConnectionLevel mode) := fun h => by
  unfold ConnectionLevel
  infer_instance

instance : DecidablePred (httpd.RequestLevel mode) := fun h => by
  unfold RequestLevel
  infer_instance

/-- The filter that is to be installed for an entry, for handlers of mod_perl under their
common name. -/
def installed (common : Bytes) (h : FilterEntry) : Installed :=
  if h.attrs.httpdHandler then ⟨h.name, none⟩ else ⟨common, some h⟩

/-- The init handler of a handler of mod_perl fails. -/
def InitFails (h : FilterEntry) : Prop := h.attrs.httpdHandler = false ∧ h.init ≠ ok

instance : DecidablePred InitFails := fun _ => inferInstanceAs (Decidable (_ ∧ _))

/-- No entry of the connection follows one whose init handler fails. -/
def ConnectionDone : List FilterEntry → Prop
  | [] => True
  | h :: handlers =>
      if httpd.ConnectionLevel mode h ∧ InitFails h then
        ∀ h' ∈ handlers, ¬httpd.ConnectionLevel mode h'
      else ConnectionDone handlers

/-- No entry of the request follows one whose init handler fails; and before that, no filter
of the server is of the connection. -/
def RequestDone : List FilterEntry → Prop
  | [] => True
  | h :: handlers =>
      if h.attrs.httpdHandler ∧ httpd.ConnectionLevel mode h then False
      else if httpd.RequestLevel mode h ∧ InitFails h then
        ∀ h' ∈ handlers, ¬httpd.RequestLevel mode h'
      else RequestDone handlers

variable {httpd mode equal filters} {h : FilterEntry} {handlers : List FilterEntry} {name : Bytes}

theorem addfunc_connection {handler : Option FilterEntry} :
    httpd.addfunc mode (connectionName mode) handler = [⟨connectionName mode, handler⟩] :=
  if_pos (httpd.connection_isSome mode)

theorem addfunc_request {handler : Option FilterEntry} :
    httpd.addfunc mode (requestName mode) handler = [⟨requestName mode, handler⟩] :=
  if_pos (httpd.request_isSome mode)

/-- The name that is looked for begins with a capital letter. -/
theorem registered_eq_false : registered mode equal filters h = false := by
  rw [registered, List.any_eq_false]
  intro f _ hfound
  simp only [Bool.and_eq_true, decide_eq_true_eq] at hfound
  obtain ⟨⟨-, hname⟩, -⟩ := hfound
  have hlower := f.name_caseless
  rw [hname] at hlower
  cases mode <;> exact absurd hlower (by decide)

/-! ## What is done for one entry -/

theorem connectionLevel_httpd (hh : h.attrs.httpdHandler = true) :
    httpd.ConnectionLevel mode h ↔ httpd.HasType mode h (httpd.ftypeProtocol ≤ ·) := by
  rw [ConnectionLevel, if_pos hh]

theorem connectionLevel_perl (hh : h.attrs.httpdHandler = false) :
    httpd.ConnectionLevel mode h ↔ h.attrs.connectionHandler = true := by
  rw [ConnectionLevel, if_neg (by simp [hh])]

theorem requestLevel_httpd (hh : h.attrs.httpdHandler = true) :
    httpd.RequestLevel mode h ↔ httpd.HasType mode h (· < httpd.ftypeProtocol) := by
  rw [RequestLevel, if_pos hh]

theorem requestLevel_perl (hh : h.attrs.httpdHandler = false) :
    httpd.RequestLevel mode h ↔ h.attrs.connectionHandler = false := by
  rw [RequestLevel, if_neg (by simp [hh])]

theorem hasType_some {ftype : ℕ} {P : ℕ → Prop}
    (hfrec : httpd.filterHandle mode (caseless h.name) = some ftype) :
    httpd.HasType mode h P ↔ P ftype :=
  ⟨fun ⟨_, heq, hP⟩ => Option.some.inj (hfrec.symm.trans heq) ▸ hP, fun hP => ⟨ftype, hfrec, hP⟩⟩

theorem addfunc_none (hfrec : httpd.filterHandle mode (caseless name) = none) :
    httpd.addfunc mode name none = [] := by
  rw [addfunc, hfrec]
  rfl

theorem addfunc_some {ftype : ℕ} (hfrec : httpd.filterHandle mode (caseless name) = some ftype) :
    httpd.addfunc mode name none = [⟨name, none⟩] := by
  rw [addfunc, hfrec]
  rfl

theorem addConnectionLoop_skip (hlevel : ¬httpd.ConnectionLevel mode h) :
    httpd.addConnectionLoop mode (h :: handlers) = httpd.addConnectionLoop mode handlers := by
  cases hh : h.attrs.httpdHandler with
  | false =>
      rw [connectionLevel_perl hh] at hlevel
      simp [addConnectionLoop, hh, hlevel]
  | true =>
      rw [connectionLevel_httpd hh] at hlevel
      cases hfrec : httpd.filterHandle mode (caseless h.name) with
      | none => simp [addConnectionLoop, hh, hfrec, addfunc_none hfrec]
      | some ftype =>
          rw [hasType_some hfrec, Nat.not_le] at hlevel
          simp [addConnectionLoop, hh, hfrec, hlevel]

theorem addConnectionLoop_add (hlevel : httpd.ConnectionLevel mode h) (hinit : ¬InitFails h) :
    (httpd.addConnectionLoop mode (h :: handlers)).1 =
      installed (connectionName mode) h :: (httpd.addConnectionLoop mode handlers).1 := by
  cases hh : h.attrs.httpdHandler with
  | false =>
      rw [connectionLevel_perl hh] at hlevel
      have hok : h.init = ok := by_contra fun hne => hinit ⟨hh, hne⟩
      simp [addConnectionLoop, installed, hh, hlevel, hok, addfunc_connection]
  | true =>
      obtain ⟨ftype, hfrec, hle⟩ := (connectionLevel_httpd hh).mp hlevel
      simp [addConnectionLoop, installed, hh, hfrec, addfunc_some hfrec, Nat.not_lt.mpr hle]

theorem addConnectionLoop_fail (hlevel : httpd.ConnectionLevel mode h) (hinit : InitFails h) :
    (httpd.addConnectionLoop mode (h :: handlers)).1 = [installed (connectionName mode) h] := by
  obtain ⟨hh, hne⟩ := hinit
  rw [connectionLevel_perl hh] at hlevel
  simp [addConnectionLoop, installed, hh, hlevel, hne, addfunc_connection]

theorem addRequestLoop_skip (hrequest : ¬httpd.RequestLevel mode h)
    (hconnection : ¬(h.attrs.httpdHandler = true ∧ httpd.ConnectionLevel mode h)) :
    httpd.addRequestLoop mode equal filters (h :: handlers) =
      httpd.addRequestLoop mode equal filters handlers := by
  cases hh : h.attrs.httpdHandler with
  | false =>
      rw [requestLevel_perl hh, Bool.not_eq_false] at hrequest
      simp [addRequestLoop, hh, hrequest]
  | true =>
      rw [requestLevel_httpd hh] at hrequest
      rw [connectionLevel_httpd hh] at hconnection
      cases hfrec : httpd.filterHandle mode (caseless h.name) with
      | none => simp [addRequestLoop, hh, addfunc_none hfrec]
      | some ftype =>
          rw [hasType_some hfrec] at hrequest hconnection
          exact absurd ⟨hh, Nat.not_lt.mp hrequest⟩ hconnection

theorem addRequestLoop_add (hlevel : httpd.RequestLevel mode h ∨
      h.attrs.httpdHandler = true ∧ httpd.ConnectionLevel mode h) (hinit : ¬InitFails h) :
    (httpd.addRequestLoop mode equal filters (h :: handlers)).1 =
      installed (requestName mode) h :: (httpd.addRequestLoop mode equal filters handlers).1 := by
  cases hh : h.attrs.httpdHandler with
  | false =>
      have hlevel := (requestLevel_perl hh).mp
        (hlevel.resolve_right fun hhttpd => by simp [hh] at hhttpd)
      have hok : h.init = ok := by_contra fun hne => hinit ⟨hh, hne⟩
      simp [addRequestLoop, installed, hh, hlevel, hok, registered_eq_false, addfunc_request]
  | true =>
      rw [requestLevel_httpd hh, connectionLevel_httpd hh] at hlevel
      obtain ⟨ftype, hfrec, -⟩ | ⟨-, ftype, hfrec, -⟩ := hlevel <;>
        simp [addRequestLoop, installed, hh, addfunc_some hfrec]

theorem addRequestLoop_fail (hlevel : httpd.RequestLevel mode h) (hinit : InitFails h) :
    (httpd.addRequestLoop mode equal filters (h :: handlers)).1 =
      [installed (requestName mode) h] := by
  obtain ⟨hh, hne⟩ := hinit
  rw [requestLevel_perl hh] at hlevel
  simp [addRequestLoop, installed, hh, hlevel, hne, registered_eq_false, addfunc_request]

/-- A filter of the server that is of the connection is not taken for one of the request. -/
theorem installed_notMem (hh : h.attrs.httpdHandler = true)
    (hlevel : httpd.ConnectionLevel mode h) :
    installed (requestName mode) h ∉
      (handlers.filter (httpd.RequestLevel mode)).map (installed (requestName mode)) := by
  intro hmem
  obtain ⟨h', hmem', heq⟩ := List.mem_map.mp hmem
  have hrequest := of_decide_eq_true (List.mem_filter.mp hmem').2
  obtain ⟨ftype, hfrec, hle⟩ := (connectionLevel_httpd hh).mp hlevel
  rw [installed, installed, if_pos hh] at heq
  cases hh' : h'.attrs.httpdHandler with
  | false => simp [hh'] at heq
  | true =>
      have hname : h'.name = h.name := by simpa [hh'] using heq
      rw [requestLevel_httpd hh', HasType, hname] at hrequest
      obtain ⟨ftype', hfrec', hlt⟩ := hrequest
      obtain rfl := Option.some.inj (hfrec.symm.trans hfrec')
      exact absurd hle (Nat.not_le.mpr hlt)

/-! ## What is done for the list -/

theorem addConnectionLoop_iff :
    (httpd.addConnectionLoop mode handlers).1 =
      (handlers.filter (httpd.ConnectionLevel mode)).map (installed (connectionName mode)) ↔
    httpd.ConnectionDone mode handlers := by
  induction handlers with
  | nil => exact iff_of_true rfl trivial
  | cons h handlers ih =>
      by_cases hlevel : httpd.ConnectionLevel mode h
      · rw [List.filter_cons_of_pos (by simpa using hlevel), List.map_cons, ConnectionDone]
        by_cases hinit : InitFails h
        · rw [addConnectionLoop_fail hlevel hinit, if_pos ⟨hlevel, hinit⟩, List.cons.injEq,
            and_iff_right rfl, eq_comm, List.map_eq_nil_iff, List.filter_eq_nil_iff]
          simp only [decide_eq_true_eq]
        · rw [addConnectionLoop_add hlevel hinit, if_neg fun hand => hinit hand.2,
            List.cons.injEq, and_iff_right rfl, ih]
      · rw [List.filter_cons_of_neg (by simpa using hlevel), addConnectionLoop_skip hlevel,
          ConnectionDone, if_neg fun hand => hlevel hand.1, ih]

theorem addRequestLoop_iff :
    (httpd.addRequestLoop mode equal filters handlers).1 =
      (handlers.filter (httpd.RequestLevel mode)).map (installed (requestName mode)) ↔
    httpd.RequestDone mode handlers := by
  induction handlers with
  | nil => exact iff_of_true rfl trivial
  | cons h handlers ih =>
      rw [RequestDone]
      by_cases hconnection : h.attrs.httpdHandler = true ∧ httpd.ConnectionLevel mode h
      · -- installed, though the connection has it
        rw [if_pos hconnection, iff_false]
        have hinit : ¬InitFails h := fun hfails => by
          simp [hfails.1] at hconnection
        rw [addRequestLoop_add (.inr hconnection) hinit]
        intro heq
        have hmem : installed (requestName mode) h ∈
            ((h :: handlers).filter (httpd.RequestLevel mode)).map
              (installed (requestName mode)) := by
          rw [← heq]
          exact List.mem_cons_self
        exact installed_notMem hconnection.1 hconnection.2 hmem
      · rw [if_neg hconnection]
        by_cases hlevel : httpd.RequestLevel mode h
        · rw [List.filter_cons_of_pos (by simpa using hlevel), List.map_cons]
          by_cases hinit : InitFails h
          · rw [addRequestLoop_fail hlevel hinit, if_pos ⟨hlevel, hinit⟩, List.cons.injEq,
              and_iff_right rfl, eq_comm, List.map_eq_nil_iff, List.filter_eq_nil_iff]
            simp only [decide_eq_true_eq]
          · rw [addRequestLoop_add (.inl hlevel) hinit, if_neg fun hand => hinit hand.2,
              List.cons.injEq, and_iff_right rfl, ih]
        · rw [List.filter_cons_of_neg (by simpa using hlevel),
            addRequestLoop_skip hlevel hconnection, if_neg fun hand => hlevel hand.1, ih]

/-- A server with a filter of the level of a protocol. -/
def withProtocolFilter : FilterRegistry where
  filterHandle := fun mode name =>
    if name = caseless (connectionName mode) then some 50
    else if name = caseless (requestName mode) then some 10
    else if name = ascii "chunk" then some 40
    else none
  ftypeProtocol := 30
  connection_isSome := fun mode => by cases mode <;> decide
  request_isSome := fun mode => by cases mode <;> decide

end FilterRegistry

end ModPerl
