import EventQuery.Config.Settings
import EventQuery.Proofs.RegistryRuns

/-!
# Consistent schemas

The registry of a configured schema is made by taking its fields one after
the other, and then its aliases in the order of their names. Whether a
request is refused, and with which error, depends only on the names that are
taken already (`Registry.Request.refusal?`), and as long as nothing is
refused these are the names of the requests before it. So the outcome of a
row of requests can be told from the row alone (`Registry.takeAll_eq`).

For a schema this comes to a condition on the schema as it stands
(`SchemaSettings.Consistent`), since of two aliases the one with the smaller
name comes first. If it holds, a name resolves to the column of the field
that is reached by following the aliases (`SchemaSettings.Reaches`).
-/

namespace EventQuery

namespace Registry

/-! ## Requests in a row -/

namespace Request

/-- The name that a request adds. -/
def name : Request → String
  | .addField d => d.path
  | .addAlias name _ => name

/-- Why a request is refused if some names are taken. -/
def refusal? (taken : List String) : Request → Option SchemaError
  | .addField d => if d.path ∈ taken then some (.fieldExists d.path) else none
  | .addAlias name target =>
    if target ∈ taken then
      if name ∈ taken then some (.fieldExists name) else none
    else some (.aliasTargetNotFound name target)

/-- Why a row of requests is refused: the first refusal in it. -/
def firstRefusal? (taken : List String) : List Request → Option SchemaError
  | [] => none
  | q :: qs => (q.refusal? taken).or (firstRefusal? (taken ++ [q.name]) qs)

theorem firstRefusal?_append (taken : List String) (qs qs' : List Request) :
    firstRefusal? taken (qs ++ qs') =
      (firstRefusal? taken qs).or (firstRefusal? (taken ++ qs.map name) qs') := by
  induction qs generalizing taken with
  | nil => rw [List.map_nil, List.append_nil]; rfl
  | cons q qs ih =>
      rw [List.cons_append, firstRefusal?, firstRefusal?, ih, Option.or_assoc, List.map_cons,
        List.append_assoc]
      rfl

/-- A row is refused for a request before which nothing is refused. -/
theorem firstRefusal?_eq_some_iff {taken : List String} {qs : List Request} {x : SchemaError} :
    firstRefusal? taken qs = some x ↔ ∃ before q after, qs = before ++ q :: after ∧
      firstRefusal? taken before = none ∧ q.refusal? (taken ++ before.map name) = some x := by
  constructor
  · intro h
    induction qs generalizing taken with
    | nil => cases h
    | cons q qs ih =>
        rw [firstRefusal?, Option.or_eq_some_iff] at h
        rcases h with h | ⟨hnone, h⟩
        · exact ⟨[], q, qs, rfl, rfl, by rwa [List.map_nil, List.append_nil]⟩
        · obtain ⟨before, q', after, rfl, hbefore, hq'⟩ := ih h
          refine ⟨q :: before, q', after, rfl, ?_, ?_⟩
          · rw [firstRefusal?, hnone, hbefore, Option.none_or]
          · rwa [List.map_cons, ← List.singleton_append, ← List.append_assoc]
  · rintro ⟨before, q, after, rfl, hbefore, hq⟩
    rw [firstRefusal?_append, hbefore, Option.none_or, firstRefusal?, hq, Option.some_or]

/-- Definitions in a row are taken if their paths are new and distinct. -/
theorem firstRefusal?_addField_eq_none_iff {taken : List String} (h : taken.Nodup)
    (fields : List FieldDef) : firstRefusal? taken (fields.map .addField) = none ↔
      (taken ++ fields.map FieldDef.path).Nodup := by
  induction fields generalizing taken with
  | nil => simpa [firstRefusal?] using h
  | cons d fields ih =>
      have hsplit : taken ++ (d :: fields).map FieldDef.path =
          taken ++ [d.path] ++ fields.map FieldDef.path := by
        rw [List.map_cons, List.append_assoc, List.singleton_append]
      have hnext : (taken ++ [d.path]).Nodup ↔ d.path ∉ taken := by
        grind [List.nodup_append]
      rw [List.map_cons, firstRefusal?, refusal?, hsplit]
      by_cases hd : d.path ∈ taken
      · rw [if_pos hd, Option.some_or]
        exact iff_of_false nofun fun hnodup => hnext.mp (List.nodup_append.mp hnodup).1 hd
      · rw [if_neg hd, Option.none_or]
        exact ih (hnext.mpr hd)

end Request

/-- The names of a registry. -/
def taken (r : Registry) : List String := r.names.map Prod.fst

theorem mem_taken_iff {r : Registry} {name : String} :
    name ∈ r.taken ↔ (r.id? name).isSome = true := by
  rw [id?, Option.isSome_map, Option.isSome_iff_ne_none, ne_eq, List.lookup_eq_none_iff]
  simp [taken]

/-- A request is refused for the names that are taken. -/
theorem answer_eq_error_iff {r : Registry} {q : Request} {x : SchemaError} :
    r.answer q = .error x ↔ q.refusal? r.taken = some x := by
  cases q with
  | addField d =>
      change r.register d = .error x ↔ _
      simp only [register, Request.refusal?, mem_taken_iff]
      cases r.id? d.path <;> simp
  | addAlias name target =>
      change r.registerAlias name target = .error x ↔ _
      simp only [registerAlias, Request.refusal?, mem_taken_iff]
      cases r.id? target <;> cases r.id? name <;> simp

theorem answer_isOk_iff {r : Registry} {q : Request} :
    (∃ id r', r.answer q = .ok (id, r')) ↔ q.refusal? r.taken = none := by
  rw [Option.eq_none_iff_forall_ne_some]
  simp only [ne_eq, ← answer_eq_error_iff]
  cases r.answer q with
  | error x => simp
  | ok reply => exact iff_of_true ⟨_, _, rfl⟩ nofun

theorem taken_of_answer {r r' : Registry} {q : Request} {id : Nat}
    (h : r.answer q = .ok (id, r')) : r'.taken = r.taken ++ [q.name] := by
  rcases answer_cases h with ⟨d, rfl, -, -, rfl⟩ | ⟨name, target, rfl, -, -, rfl⟩
  · exact List.map_append
  · exact List.map_append

theorem run_cons_of_ok {r r' : Registry} {q : Request} {id : Nat} (h : r.answer q = .ok (id, r'))
    (qs : List Request) : r.run (q :: qs) = r'.run qs :=
  congrArg (run · qs) (after_of_ok h)

/-- The outcome of a row of requests. -/
theorem takeAll_eq (r : Registry) (qs : List Request) :
    r.takeAll qs =
      match Request.firstRefusal? r.taken qs with
      | some x => .error x
      | none => .ok (r.run qs) := by
  induction qs generalizing r with
  | nil => rfl
  | cons q qs ih =>
      have htakeAll : r.takeAll (q :: qs) = ((·.2) <$> r.answer q) >>= fun r' => r'.takeAll qs :=
        List.foldlM_cons
      rw [htakeAll, Request.firstRefusal?]
      cases hanswer : r.answer q with
      | error x =>
          rw [answer_eq_error_iff.mp hanswer]
          rfl
      | ok reply =>
          obtain ⟨id, r'⟩ := reply
          have hnone : q.refusal? r.taken = none := answer_isOk_iff.mp ⟨id, r', hanswer⟩
          rw [hnone, Option.none_or, ← taken_of_answer hanswer,
            run_cons_of_ok hanswer]
          exact ih r'

/-- While nothing is refused, the names are those of the requests. -/
theorem taken_run {r : Registry} {qs : List Request}
    (h : Request.firstRefusal? r.taken qs = none) :
    (r.run qs).taken = r.taken ++ qs.map Request.name := by
  induction qs generalizing r with
  | nil => exact (List.append_nil _).symm
  | cons q qs ih =>
      obtain ⟨hq, hqs⟩ := Option.or_eq_none_iff.mp h
      obtain ⟨id, r', hanswer⟩ := answer_isOk_iff.mpr hq
      rw [← taken_of_answer hanswer] at hqs
      rw [run_cons_of_ok hanswer, ih hqs, taken_of_answer hanswer, List.append_assoc]
      rfl

/-- In a row without a refusal every request was taken at some time. -/
theorem answer_of_mem {r : Registry} {q : Request} {qs : List Request}
    (h : Request.firstRefusal? r.taken qs = none) (hq : q ∈ qs) :
    ∃ past id r' later, (r.run past).answer q = .ok (id, r') ∧ r.run qs = r'.run later := by
  obtain ⟨past, later, rfl⟩ := List.append_of_mem hq
  rw [Request.firstRefusal?_append, Option.or_eq_none_iff, Request.firstRefusal?,
    Option.or_eq_none_iff] at h
  obtain ⟨hpast, hrefusal, -⟩ := h
  rw [← taken_run hpast] at hrefusal
  obtain ⟨id, r', hanswer⟩ := answer_isOk_iff.mpr hrefusal
  exact ⟨past, id, r', later, hanswer, run_of_ok hanswer later⟩

end Registry

namespace SchemaSettings

/-! ## Consistency -/

def paths (s : SchemaSettings) : List String := s.fields.map FieldDef.path

def aliasNames (s : SchemaSettings) : List String := s.aliases.entries.map Prod.fst

/-- What an alias may stand for: a path, or an alias with a smaller name. -/
def Available (s : SchemaSettings) (name target : String) : Prop :=
  target ∈ s.paths ∨ target ∈ s.aliasNames ∧ target < name

instance (s : SchemaSettings) (name target : String) : Decidable (s.Available name target) :=
  inferInstanceAs (Decidable (_ ∨ _ ∧ _))

structure Consistent (s : SchemaSettings) : Prop where
  /-- No path is given twice. -/
  nodup : s.paths.Nodup
  /-- No alias is a path. -/
  fresh : ∀ a ∈ s.aliases.entries, a.1 ∉ s.paths
  /-- Every alias stands for something. -/
  available : ∀ a ∈ s.aliases.entries, s.Available a.1 a.2

/-- What is wrong with an alias; a missing target before a name that is
taken. -/
def aliasError? (s : SchemaSettings) (a : String × String) : Option SchemaError :=
  if s.Available a.1 a.2 then
    if a.1 ∈ s.paths then some (.fieldExists a.1) else none
  else some (.aliasTargetNotFound a.1 a.2)

/-- The field that a name stands for, by following the aliases. -/
inductive Reaches (s : SchemaSettings) : String → FieldDef → Prop
  | field {d : FieldDef} (h : d ∈ s.fields) : Reaches s d.path d
  | follow {name target : String} {d : FieldDef} (h : (name, target) ∈ s.aliases.entries)
      (htarget : Reaches s target d) : Reaches s name d

/-! ## Aliases in the order of their names -/

section Order

variable {s : SchemaSettings} {before after : List (String × String)} {a : String × String}

/-- Of two aliases the one with the smaller name comes first. -/
theorem mem_before_iff (h : s.aliases.entries = before ++ a :: after) (target : String) :
    target ∈ before.map Prod.fst ↔ target ∈ s.aliasNames ∧ target < a.1 := by
  have hordered := s.aliases.ordered
  rw [h, List.pairwise_append, List.pairwise_cons] at hordered
  obtain ⟨-, ⟨hafter, -⟩, hbefore⟩ := hordered
  rw [aliasNames, h, List.map_append, List.mem_append, List.map_cons, List.mem_cons]
  constructor
  · intro hmem
    obtain ⟨b, hb, rfl⟩ := List.mem_map.mp hmem
    exact ⟨.inl hmem, hbefore b hb a List.mem_cons_self⟩
  · rintro ⟨hmem | rfl | hmem, hlt⟩
    · exact hmem
    · exact absurd hlt (String.lt_irrefl _)
    · obtain ⟨b, hb, rfl⟩ := List.mem_map.mp hmem
      exact absurd (String.lt_trans hlt (hafter b hb)) (String.lt_irrefl _)

/-- What is wrong with an alias is why it is refused. -/
theorem refusal?_eq_aliasError? (h : s.aliases.entries = before ++ a :: after) :
    (Registry.Request.addAlias a.1 a.2).refusal? (s.paths ++ before.map Prod.fst) =
      s.aliasError? a := by
  have htarget : a.2 ∈ s.paths ++ before.map Prod.fst ↔ s.Available a.1 a.2 := by
    rw [List.mem_append, mem_before_iff h, Available]
  have hname : a.1 ∈ s.paths ++ before.map Prod.fst ↔ a.1 ∈ s.paths := by
    rw [List.mem_append, mem_before_iff h]
    exact or_iff_left fun hlt => String.lt_irrefl _ hlt.2
  simp only [Registry.Request.refusal?, aliasError?, htarget, hname]

end Order

/-! ## The outcome -/

/-- The requests that make the registry. -/
def requests (s : SchemaSettings) : List Registry.Request :=
  s.fields.map .addField ++ s.aliases.entries.map fun a => .addAlias a.1 a.2

theorem registry_eq_takeAll (s : SchemaSettings) : s.registry = Registry.empty.takeAll s.requests :=
  Registry.build_eq_takeAll _ _

theorem map_name_addField (fields : List FieldDef) :
    (fields.map Registry.Request.addField).map Registry.Request.name =
      fields.map FieldDef.path :=
  List.map_map

/-- From some alias on, the first refusal is that of the first alias with
which something is wrong. -/
theorem firstRefusal?_aliases (s : SchemaSettings) {before after : List (String × String)}
    (h : s.aliases.entries = before ++ after) :
    Registry.Request.firstRefusal? (s.paths ++ before.map Prod.fst)
      (after.map fun a => .addAlias a.1 a.2) = after.findSome? s.aliasError? := by
  induction after generalizing before with
  | nil => rfl
  | cons a after ih =>
      have hnext : s.aliases.entries = (before ++ [a]) ++ after := by
        rw [h, List.append_assoc, List.singleton_append]
      have htaken : s.paths ++ before.map Prod.fst ++ [a.1] =
          s.paths ++ (before ++ [a]).map Prod.fst := by
        rw [List.map_append, List.append_assoc]
        rfl
      rw [List.map_cons, Registry.Request.firstRefusal?, refusal?_eq_aliasError? h,
        Registry.Request.name, htaken, ih hnext, List.findSome?_cons]
      cases s.aliasError? a <;> rfl

/-- The first refusal: that of a repeated path, or else that of an alias. -/
theorem firstRefusal?_requests (s : SchemaSettings) :
    Registry.Request.firstRefusal? [] s.requests =
      (Registry.Request.firstRefusal? [] (s.fields.map .addField)).or
        (s.aliases.entries.findSome? s.aliasError?) := by
  rw [requests, Registry.Request.firstRefusal?_append, List.nil_append, map_name_addField,
    ← firstRefusal?_aliases s (List.nil_append _).symm, List.map_nil, List.append_nil]
  rfl

theorem firstRefusal?_fields_eq_none_iff (s : SchemaSettings) :
    Registry.Request.firstRefusal? [] (s.fields.map .addField) = none ↔ s.paths.Nodup :=
  Registry.Request.firstRefusal?_addField_eq_none_iff List.nodup_nil s.fields

theorem aliasError?_eq_none_iff {s : SchemaSettings} {a : String × String} :
    s.aliasError? a = none ↔ a.1 ∉ s.paths ∧ s.Available a.1 a.2 := by
  unfold aliasError?
  by_cases havailable : s.Available a.1 a.2 <;> by_cases hpath : a.1 ∈ s.paths <;>
    simp [havailable, hpath]

theorem consistent_iff (s : SchemaSettings) : s.Consistent ↔
    Registry.Request.firstRefusal? [] s.requests = none := by
  rw [firstRefusal?_requests, Option.or_eq_none_iff, firstRefusal?_fields_eq_none_iff,
    List.findSome?_eq_none_iff]
  simp only [aliasError?_eq_none_iff]
  constructor
  · exact fun h => ⟨h.nodup, fun a ha => ⟨h.fresh a ha, h.available a ha⟩⟩
  · exact fun h => ⟨h.1, fun a ha => (h.2 a ha).1, fun a ha => (h.2 a ha).2⟩

theorem registry_eq_ok_iff {s : SchemaSettings} {r : Registry} :
    s.registry = .ok r ↔ s.Consistent ∧ r = Registry.empty.run s.requests := by
  have hempty : Registry.empty.taken = [] := rfl
  rw [registry_eq_takeAll, Registry.takeAll_eq, consistent_iff, hempty]
  cases Registry.Request.firstRefusal? [] s.requests <;> simp [eq_comm]

theorem registry_eq_error_iff {s : SchemaSettings} {x : SchemaError} :
    s.registry = .error x ↔ Registry.Request.firstRefusal? [] s.requests = some x := by
  have hempty : Registry.empty.taken = [] := rfl
  rw [registry_eq_takeAll, Registry.takeAll_eq, hempty]
  cases Registry.Request.firstRefusal? [] s.requests <;> simp

/-- Fields are refused for the first path that was given before. -/
theorem firstRefusal?_fields_eq_some_iff (s : SchemaSettings) {x : SchemaError} :
    Registry.Request.firstRefusal? [] (s.fields.map .addField) = some x ↔
      ∃ before d after, s.fields = before ++ d :: after ∧
        (before.map FieldDef.path).Nodup ∧ d.path ∈ before.map FieldDef.path ∧
        x = .fieldExists d.path := by
  rw [Registry.Request.firstRefusal?_eq_some_iff]
  constructor
  · rintro ⟨_, q, _, hsplit, hbefore, hq⟩
    obtain ⟨before, rest, hfields, rfl, hrest⟩ := List.map_eq_append_iff.mp hsplit
    obtain ⟨d, after, rfl, rfl, -⟩ := List.map_eq_cons_iff.mp hrest
    rw [Registry.Request.firstRefusal?_addField_eq_none_iff List.nodup_nil] at hbefore
    rw [map_name_addField, Registry.Request.refusal?] at hq
    split at hq <;> cases hq
    rename_i hmem
    exact ⟨before, d, after, hfields, hbefore, hmem, rfl⟩
  · rintro ⟨before, d, after, hfields, hnodup, hmem, rfl⟩
    refine ⟨before.map .addField, .addField d, after.map .addField, ?_, ?_, ?_⟩
    · rw [hfields, List.map_append, List.map_cons]
    · exact (Registry.Request.firstRefusal?_addField_eq_none_iff List.nodup_nil _).mpr hnodup
    · rw [map_name_addField]
      exact if_pos hmem

/-! ## Following the aliases -/

section Resolution

variable {s : SchemaSettings}

theorem Consistent.nothing_refused (h : s.Consistent) :
    Registry.Request.firstRefusal? Registry.empty.taken s.requests = none :=
  s.consistent_iff.mp h

/-- Every alias of a consistent schema leads to a field. -/
theorem Consistent.reaches (h : s.Consistent) {a : String × String}
    (ha : a ∈ s.aliases.entries) : ∃ d, s.Reaches a.1 d := by
  -- Along the list of aliases: a target that is an alias comes earlier.
  suffices hall : ∀ after before, s.aliases.entries = before ++ after →
      (∀ b ∈ before, ∃ d, s.Reaches b.1 d) → ∀ b ∈ after, ∃ d, s.Reaches b.1 d from
    hall s.aliases.entries [] rfl (List.forall_mem_nil _) a ha
  intro after
  induction after with
  | nil => exact fun _ _ _ => List.forall_mem_nil _
  | cons b after ih =>
      intro before hentries hbefore
      have hmem : b ∈ s.aliases.entries := hentries ▸ List.mem_append_right _ List.mem_cons_self
      have hb : ∃ d, s.Reaches b.1 d := by
        rcases h.available b hmem with hpath | hsmaller
        · obtain ⟨d, hd, hpath⟩ := List.mem_map.mp hpath
          exact ⟨d, .follow hmem (hpath ▸ .field hd)⟩
        · obtain ⟨c, hc, hname⟩ := List.mem_map.mp ((mem_before_iff hentries b.2).mpr hsmaller)
          obtain ⟨d, hd⟩ := hbefore c hc
          exact ⟨d, .follow hmem (hname ▸ hd)⟩
      have hnext : s.aliases.entries = (before ++ [b]) ++ after := by
        rw [hentries, List.append_assoc, List.singleton_append]
      refine List.forall_mem_cons.mpr ⟨hb, ih _ hnext ?_⟩
      exact List.forall_mem_append.mpr ⟨hbefore, List.forall_mem_singleton.mpr hb⟩

theorem Consistent.get?_path (h : s.Consistent) {d : FieldDef} (hd : d ∈ s.fields) :
    (Registry.empty.run s.requests).get? d.path = some d.withColumn := by
  have hmem : Registry.Request.addField d ∈ s.requests :=
    List.mem_append_left _ (List.mem_map_of_mem hd)
  obtain ⟨past, id, r', later, hanswer, hrun⟩ := Registry.answer_of_mem h.nothing_refused hmem
  rw [hrun]
  exact (r'.extends_run later).get? (Registry.get?_of_register hanswer)

theorem Consistent.get?_alias (h : s.Consistent) {name target : String}
    (ha : (name, target) ∈ s.aliases.entries) :
    (Registry.empty.run s.requests).get? name = (Registry.empty.run s.requests).get? target := by
  have hmem : Registry.Request.addAlias name target ∈ s.requests :=
    List.mem_append_right _ (List.mem_map.mpr ⟨(name, target), ha, rfl⟩)
  obtain ⟨past, id, r', later, hanswer, hrun⟩ := Registry.answer_of_mem h.nothing_refused hmem
  -- the target has a definition when the alias is taken, and keeps it
  obtain ⟨-, htarget, -⟩ := Registry.registerAlias_eq_ok_iff.mp hanswer
  obtain ⟨d, hd, -⟩ := (Registry.Sound.empty.run past).field?_of_id? htarget
  have hget : (Registry.empty.run past).get? target = some d :=
    Option.bind_eq_some_iff.mpr ⟨id, htarget, hd⟩
  have hgrows := Registry.extends_after (Registry.empty.run past) (.addAlias name target)
  rw [Registry.after_of_ok hanswer] at hgrows
  rw [hrun, (r'.extends_run later).get? (hgrows.get? hget),
    (r'.extends_run later).get? ((Registry.get?_of_registerAlias hanswer).trans hget)]

/-- A name that leads to a field is found as that field. -/
theorem Consistent.get?_of_reaches (h : s.Consistent) {name : String} {d : FieldDef}
    (hname : s.Reaches name d) :
    (Registry.empty.run s.requests).get? name = some d.withColumn := by
  induction hname with
  | field hd => exact h.get?_path hd
  | follow ha _ ih => rw [h.get?_alias ha, ih]

/-- A name that is found leads to a field. -/
theorem Consistent.reaches_of_get? (h : s.Consistent) {name : String} {d : FieldDef}
    (hname : (Registry.empty.run s.requests).get? name = some d) :
    ∃ d', s.Reaches name d' ∧ d'.withColumn = d := by
  obtain ⟨id, hid, -⟩ := Option.bind_eq_some_iff.mp hname
  have htaken : name ∈ (Registry.empty.run s.requests).taken :=
    Registry.mem_taken_iff.mpr (Option.isSome_of_eq_some hid)
  rw [Registry.taken_run h.nothing_refused] at htaken
  have hreaches : ∃ d', s.Reaches name d' := by
    obtain ⟨q, hq, rfl⟩ := List.mem_map.mp htaken
    rcases List.mem_append.mp hq with hq | hq
    · obtain ⟨d', hd', rfl⟩ := List.mem_map.mp hq
      exact ⟨d', .field hd'⟩
    · obtain ⟨a, ha, rfl⟩ := List.mem_map.mp hq
      exact h.reaches ha
  obtain ⟨d', hd'⟩ := hreaches
  exact ⟨d', hd', Option.some.inj ((h.get?_of_reaches hd').symm.trans hname)⟩

theorem Consistent.resolve_eq_ok_iff (h : s.Consistent) {name column : String} :
    (Registry.empty.run s.requests).resolve name = .ok column ↔
      ∃ d, s.Reaches name d ∧ d.withColumn.column = column := by
  unfold Registry.resolve
  constructor
  · intro hresolve
    split at hresolve <;> cases hresolve
    rename_i d hd
    obtain ⟨d', hd', rfl⟩ := h.reaches_of_get? hd
    exact ⟨d', hd', rfl⟩
  · rintro ⟨d, hd, rfl⟩
    rw [h.get?_of_reaches hd]

end Resolution

/-! ## The headline theorem -/

end SchemaSettings

end EventQuery
