import Wikore.Lib.Carried
import Wikore.Lib.Delimited
import Wikore.Lib.JsonSearch

/-! `validate_jwt`: the identity that a token proves, and when its admin flag says that the token
grants the admin role.  The flag is found by a search in the text of the `realm_access` claim, so
that any string in it that spells the role sets it, wherever it stands. -/

namespace Wikore

/-! ### Tokens -/

structure Identity where
  userId : String
  email : String
  displayName : String
  isAdmin : Bool
deriving DecidableEq, Repr

/-- The part of `Config` that is about tokens. -/
structure OidcConfig where
  oidcIssuer : String
  oidcAudience : String
deriving DecidableEq, Repr

/-- A decoded token.  The numbers of its claims are written as the standard writes them. -/
structure Jwt where
  header : List (String × Json)
  payload : List (String × Json)
  numbers : ∀ n ∈ Json.memberNumbers payload, Json.IsNumber n

/-- `has_payload_claim` and `get_payload_claim`. -/
def Jwt.payloadClaim (jwt : Jwt) (name : String) : Option Json := jwt.payload.lookup name

/-- `as_string`, which throws for a value of another type. -/
def asString (v : Json) : Option String :=
  match v with
  | .string s => some s
  | _ => none

/-- A string that may be left out. -/
def stringOr (default : String) (claim : Option Json) : Option String :=
  match claim with
  | none => some default
  | some v => asString v

/-- What validation asks the libraries and other components for. -/
structure JwtEnv where
  cfg : Option OidcConfig
  kidToPem : List (String × String)
  decode : String → Option Jwt
  verify : OidcConfig → String → Jwt → Bool
  serialize : Json → List UInt8
  redisGet : String → Option String

/-- The text that `find` looks for. -/
def quotedRole (role : String) : List UInt8 := Utf8.encodeChars (Json.inQuotes role.toList)

/-- `find` finds the text. -/
def contains (text pat : List UInt8) : Bool := (Delimited.cut pat text).isSome

def mentionsAdmin (env : JwtEnv) (realmAccess : Json) : Bool :=
  let raStr := env.serialize realmAccess
  contains raStr (quotedRole "admin") || contains raStr (quotedRole "wikore-admin")

def isAdminClaim (env : JwtEnv) (jwt : Jwt) : Bool :=
  match jwt.payloadClaim "realm_access" with
  | some v => mentionsAdmin env v
  | none => false

/-- The name, or else the user name. -/
def displayNameClaim (jwt : Jwt) : Option String :=
  match jwt.payloadClaim "name" with
  | some v => asString v
  | none => stringOr "" (jwt.payloadClaim "preferred_username")

def identityOf (env : JwtEnv) (jwt : Jwt) : Option Identity := do
  let userId ← (jwt.payloadClaim "sub").bind asString
  let email ← stringOr "" (jwt.payloadClaim "email")
  let displayName ← displayNameClaim jwt
  some {
    userId := userId
    email := email
    displayName := displayName
    isAdmin := isAdminClaim env jwt }

/-- Presence of the key means revoked. -/
def notRevoked (env : JwtEnv) (jwt : Jwt) : Option Unit :=
  match jwt.payloadClaim "jti" with
  | none => some ()
  | some v => do
    let jti ← asString v
    if (env.redisGet ("lr:jwt:" ++ jti)).isSome then none else some ()

def validateJwt (env : JwtEnv) (token : String) : Option Identity := do
  let cfg ← env.cfg
  if cfg.oidcIssuer.isEmpty || token.isEmpty then none
  let decoded ← env.decode token
  let kid ← stringOr "" (decoded.header.lookup "kid")
  let pem ← env.kidToPem.lookup kid
  if !env.verify cfg pem decoded then none
  let id ← identityOf env decoded
  notRevoked env decoded
  some id

/-! ### The admin role -/

def adminRoles : List String := ["admin", "wikore-admin"]

/-- An object whose `roles` member is an array with an admin role in it. -/
def HasAdminRole (v : Json) : Prop :=
  ∃ ms roles, v = .object ms ∧ ms.lookup "roles" = some (.array roles) ∧
    ∃ role ∈ adminRoles, .string role ∈ roles

/-- The token grants the admin role. -/
def Jwt.GrantsAdmin (jwt : Jwt) : Prop :=
  ∃ v, jwt.payloadClaim "realm_access" = some v ∧ HasAdminRole v

/-- Some string in the value, the names of members among them, spells an admin role. -/
def NamesAdmin (v : Json) : Prop := ∃ role ∈ adminRoles, Json.AnySpells role.toList v.strings

/-- Compact JSON, with strings quoted and escaped, and letters and hyphens as they are. -/
structure WritesJson (serialize : Json → List UInt8) (esc : Char → List Char) : Prop where
  escaping : Json.Escaping esc
  letters : ∀ c : Char, c.isAlpha ∨ c = '-' → esc c = [c]
  text : ∀ v, serialize v = Utf8.encodeChars (Json.render esc v)

section AdminFlag

variable {env : JwtEnv} {esc : Char → List Char}

theorem WritesJson.plain (h : WritesJson env.serialize esc) {role : String}
    (hrole : role ∈ adminRoles) : Json.Plain esc role.toList := by
  have hall : (role.toList.all fun c =>
      (c.isAlpha || c == '-') && c != '"' && c != '\\') = true := by
    rcases List.mem_cons.mp hrole with rfl | hrole
    · decide
    · obtain rfl := List.mem_singleton.mp hrole
      decide
  have hletters : ∀ c ∈ role.toList, (c.isAlpha ∨ c = '-') ∧ c ≠ '"' ∧ c ≠ '\\' := by
    simpa [and_assoc] using hall
  refine ⟨fun c hc => ⟨h.letters c (hletters c hc).1, (hletters c hc).2⟩, ?_⟩
  rcases List.mem_cons.mp hrole with rfl | hrole
  · exact ⟨'a', "dmin".toList, rfl, by decide⟩
  · obtain rfl := List.mem_singleton.mp hrole
    exact ⟨'w', "ikore-admin".toList, rfl, by decide⟩

theorem contains_quotedRole_iff (h : WritesJson env.serialize esc) (role : String)
    (hrole : role ∈ adminRoles) {v : Json} (hnum : ∀ n ∈ v.numbers, Json.IsNumber n) :
    contains (env.serialize v) (quotedRole role) = true ↔
      Json.AnySpells role.toList v.strings := by
  have hwritten : quotedRole role ≠ [] := by
    rw [quotedRole, Json.inQuotes, Utf8.encodeChars_cons]
    exact List.append_ne_nil_of_left_ne_nil (by decide) _
  calc contains (env.serialize v) (quotedRole role) = true
      ↔ quotedRole role <:+: env.serialize v := Delimited.isSome_cut_iff hwritten
    _ ↔ Json.inQuotes role.toList <:+: Json.render esc v := by
      rw [h.text, quotedRole]
      exact Utf8.infix_encodeChars_iff (List.cons_ne_nil _ _)
    _ ↔ Json.AnySpells role.toList v.strings := Json.infix_render_iff h.escaping (h.plain hrole) hnum

theorem mentionsAdmin_iff (h : WritesJson env.serialize esc) {v : Json}
    (hnum : ∀ n ∈ v.numbers, Json.IsNumber n) : mentionsAdmin env v = true ↔ NamesAdmin v := by
  have hadmin := contains_quotedRole_iff h "admin" List.mem_cons_self hnum
  have hwikore := contains_quotedRole_iff h "wikore-admin" (by decide) hnum
  simp only [mentionsAdmin, Bool.or_eq_true, hadmin, hwikore, NamesAdmin, adminRoles,
    List.exists_mem_cons_iff]
  simp

/-- The search finds every granted role. -/
theorem HasAdminRole.namesAdmin {v : Json} (h : HasAdminRole v) : NamesAdmin v := by
  obtain ⟨ms, roles, rfl, hroles, role, hrole, hmem⟩ := h
  have hstrings : Json.elementStrings roles ⊆ Json.memberStrings ms :=
    Json.strings_subset_of_lookup hroles
  exact ⟨role, hrole, role, hstrings (Json.mem_elementStrings hmem), .inl rfl⟩

theorem isAdminClaim_iff (h : WritesJson env.serialize esc) (jwt : Jwt) :
    isAdminClaim env jwt = true ↔
      ∃ v, jwt.payloadClaim "realm_access" = some v ∧ NamesAdmin v := by
  unfold isAdminClaim
  split
  next v hv =>
    have hnum : ∀ n ∈ v.numbers, Json.IsNumber n := fun n hn =>
      jwt.numbers n (Json.numbers_subset_of_lookup hv hn)
    rw [mentionsAdmin_iff h hnum, hv]
    simp
  next hnone => simp [hnone]

/-- What an identity says of its token. -/
theorem validateJwt_spec {token : String} {jwt : Jwt} {id : Identity}
    (hdecode : env.decode token = some jwt) (hvalid : validateJwt env token = some id) :
    (∃ cfg pem, env.cfg = some cfg ∧ env.verify cfg pem jwt = true) ∧
      identityOf env jwt = some id ∧ notRevoked env jwt = some () := by
  simp only [validateJwt, hdecode, Option.bind_eq_bind, Option.bind_eq_some_iff] at hvalid
  obtain ⟨cfg, hcfg, hvalid⟩ := hvalid
  split at hvalid
  next => cases hvalid
  next =>
    rw [Option.bind_some] at hvalid
    obtain ⟨kid, -, hvalid⟩ := Option.bind_eq_some_iff.mp hvalid
    obtain ⟨pem, -, hvalid⟩ := Option.bind_eq_some_iff.mp hvalid
    split at hvalid
    next => cases hvalid
    next hverify =>
      obtain ⟨id', hid, hvalid⟩ := Option.bind_eq_some_iff.mp hvalid
      obtain ⟨u, hrevoked, hvalid⟩ := Option.bind_eq_some_iff.mp hvalid
      obtain rfl := Option.some.inj hvalid
      exact ⟨⟨cfg, pem, hcfg, by simpa using hverify⟩, hid, hrevoked⟩

theorem isAdmin_of_identityOf {jwt : Jwt} {id : Identity} (h : identityOf env jwt = some id) :
    id.isAdmin = isAdminClaim env jwt := by
  simp only [identityOf, Option.bind_eq_bind, Option.bind_eq_some_iff] at h
  obtain ⟨userId, -, email, -, displayName, -, he⟩ := h
  rw [← Option.some.inj he]

/-- The flag of an identity means the admin role exactly where each string of the claim that spells
a role stands in a claim that grants one. -/
theorem validateJwt_isAdmin_iff (h : WritesJson env.serialize esc) (token : String) {jwt : Jwt}
    {id : Identity} (hdecode : env.decode token = some jwt)
    (hvalid : validateJwt env token = some id) :
    (id.isAdmin = true ↔ jwt.GrantsAdmin) ↔
      ∀ v, jwt.payloadClaim "realm_access" = some v → NamesAdmin v → HasAdminRole v := by
  obtain ⟨-, hid, -⟩ := validateJwt_spec hdecode hvalid
  rw [isAdmin_of_identityOf hid, isAdminClaim_iff h]
  constructor
  · intro hiff v hv hnames
    obtain ⟨u, hu, hrole⟩ := hiff.mp ⟨v, hv, hnames⟩
    obtain rfl := Option.some.inj (hv.symm.trans hu)
    exact hrole
  · intro hall
    constructor
    · rintro ⟨v, hv, hnames⟩
      exact ⟨v, hv, hall v hv hnames⟩
    · rintro ⟨v, hv, hrole⟩
      exact ⟨v, hv, hrole.namesAdmin⟩

end AdminFlag

/-! ### One realm -/

/-- The escapes of a library that writes a slash after a backslash too. -/
def escapeChar (c : Char) : List Char :=
  if c = '"' then ['\\', '"']
  else if c = '\\' then ['\\', '\\']
  else if c = '/' then ['\\', '/']
  else if c = '\n' then ['\\', 'n']
  else [c]

theorem escaping_escapeChar : Json.Escaping escapeChar := by
  refine ⟨rfl, fun c hc => ?_⟩
  unfold escapeChar
  rw [if_neg hc]
  split
  · exact ⟨by decide, .inr rfl⟩
  next hback =>
    split
    · exact ⟨by decide, .inr rfl⟩
    split
    · exact ⟨by decide, .inr rfl⟩
    · exact ⟨by simpa using Ne.symm hc, .inl ⟨rfl, hback⟩⟩

def serializeJson (v : Json) : List UInt8 := Utf8.encodeChars (Json.render escapeChar v)

theorem writesJson_serializeJson : WritesJson serializeJson escapeChar where
  escaping := escaping_escapeChar
  letters c hc := by
    have hne : c ≠ '"' ∧ c ≠ '\\' ∧ c ≠ '/' ∧ c ≠ '\n' := by
      refine ⟨?_, ?_, ?_, ?_⟩ <;> rintro rfl <;> revert hc <;> decide
    obtain ⟨hquote, hback, hslash, hline⟩ := hne
    rw [escapeChar, if_neg hquote, if_neg hback, if_neg hslash, if_neg hline]
  text _ := rfl

/-- A token with one claim besides its subject. -/
def tokenWith (realmAccess : Json) (h : ∀ n ∈ realmAccess.numbers, Json.IsNumber n) : Jwt where
  header := [("kid", .string "k1")]
  payload := [("realm_access", realmAccess), ("sub", .string "u1")]
  numbers n hn := h n (by simpa [Json.memberNumbers, Json.numbers] using hn)

def realmEnv (jwt : Jwt) : JwtEnv where
  cfg := some { oidcIssuer := "https://auth.example.com/realms/wikore", oidcAudience := "wikore" }
  kidToPem := [("k1", "PEM")]
  decode token := if token = "t1" then some jwt else none
  verify _ _ _ := true
  serialize := serializeJson
  redisGet _ := none

/-- Keycloak's claim of an administrator. -/
def adminClaim : Json := .object [("roles", .array [.string "user", .string "admin"])]

theorem adminClaim_isAdmin :
    let jwt := tokenWith adminClaim (by decide)
    let id : Identity := { userId := "u1", email := "", displayName := "", isAdmin := true }
    (id.isAdmin = true ↔ jwt.GrantsAdmin) ↔
      ∀ v, jwt.payloadClaim "realm_access" = some v → NamesAdmin v → HasAdminRole v :=
  @validateJwt_isAdmin_iff (realmEnv (tokenWith adminClaim (by decide))) escapeChar
    writesJson_serializeJson "t1" _ _ rfl rfl

/-- A member named after the role. -/
def namedClaim : Json := .object [("admin", .bool false), ("roles", .array [.string "user"])]

theorem namedClaim_isAdmin :
    ¬((∃ id, validateJwt (realmEnv (tokenWith namedClaim (by decide))) "t1" = some id ∧
      id.isAdmin = true) → (tokenWith namedClaim (by decide)).GrantsAdmin) := by
  intro h
  obtain ⟨v, hv, ms, roles, rfl, hroles, role, hrole, hmem⟩ :=
    h ⟨{ userId := "u1", email := "", displayName := "", isAdmin := true }, rfl, rfl⟩
  have hms : .object ms = namedClaim := (Option.some.inj hv).symm
  obtain rfl := Json.object.inj hms
  have hvs : .array roles = Json.array [.string "user"] := (Option.some.inj hroles).symm
  obtain rfl := Json.array.inj hvs
  have huser : role = "user" := by simpa using hmem
  rw [huser] at hrole
  revert hrole
  decide

end Wikore
