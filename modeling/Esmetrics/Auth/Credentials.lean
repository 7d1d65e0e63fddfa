import Esmetrics.Lib.Base64
import Esmetrics.Lib.KeyedList

/-!
# Credentials

Model of `esm-auth/src/auth.rs`: the map of tokens that a config is built into, and the tokens that
are derived from a request. All kinds of credentials are keys of one map; a request is looked up by
the value of its `Authorization` header, where the scheme `Token` stands for `Bearer`.

The encoder of the source is base64 (`base64StdEncode_eq`), and a map that is built holds the tokens
of every user and no token of two (`build_ok`). A header is then looked up as the user whose
credential it is (`lookup_credential`). A configured `auth_token` with the scheme `Token` is not
rewritten, so that no header reaches it.
-/

namespace Esmetrics.Auth

open List
open Prod (fst snd)

/-! ### The tokens of a user -/

structure UserInfo where
  name : Option Bytes
  bearerToken : Option Bytes
  authToken : Option Bytes
  username : Option Bytes
  password : Option Bytes
  deriving DecidableEq

structure AuthConfig where
  users : List UserInfo
  unauthorizedUser : Option UserInfo

/-- The map of a config; a token leads to the index of a user. -/
structure AuthMap where
  tokens : List (Bytes × ℕ)
  users : List UserInfo
  unauthorized : Option UserInfo

inductive AuthError where
  /-- The text "bearer_token cannot be specified if auth_token is set". -/
  | bearerAndAuthToken
  /-- The text "username and password cannot be specified if auth_token is set". -/
  | basicAndAuthToken
  /-- The text "username and password cannot be specified if bearer_token is set". -/
  | basicAndBearerToken
  /-- The text "missing authorization options; bearer_token or username must be set". -/
  | missing
  /-- The text "duplicate auth token found for", with the username and the name of both users. -/
  | duplicate (token : Bytes) (username name oldUsername oldName : Option Bytes)
  deriving DecidableEq

def nonEmpty (v : Option Bytes) : Option Bytes := v.filter (· ≠ [])

/-- One group of at most three bytes. -/
def base64Chunk (chunk : Bytes) : Bytes :=
  let b0 := chunk.getD 0 0
  let b1 := chunk.getD 1 0
  let b2 := chunk.getD 2 0
  let n : UInt32 := (b0.toUInt32 <<< 16) ||| (b1.toUInt32 <<< 8) ||| b2.toUInt32
  [Base64.symbol ((n >>> 18) &&& 0x3f).toNat, Base64.symbol ((n >>> 12) &&& 0x3f).toNat,
    if chunk.length > 1 then Base64.symbol ((n >>> 6) &&& 0x3f).toNat else '='.toUInt8,
    if chunk.length > 2 then Base64.symbol (n &&& 0x3f).toNat else '='.toUInt8]

def base64StdEncode : Bytes → Bytes
  | b0 :: b1 :: b2 :: rest => base64Chunk [b0, b1, b2] ++ base64StdEncode rest
  | [] => []
  | chunk => base64Chunk chunk

def httpAuthToken (v : Bytes) : Bytes := ascii "http_auth:" ++ v

def httpAuthBearer (t : Bytes) : Bytes := ascii "http_auth:Bearer " ++ t

def httpAuthBasic (username password : Bytes) : Bytes :=
  ascii "http_auth:Basic " ++ base64StdEncode (username ++ ':'.toUInt8 :: password)

/-- The tokens of a user in the map. -/
def getAuthTokens (authToken bearerToken username password : Option Bytes) :
    Except AuthError (List Bytes) :=
  let authToken := nonEmpty authToken
  let bearerToken := nonEmpty bearerToken
  let username := nonEmpty username
  let password := nonEmpty password
  match authToken with
  | some t =>
    if bearerToken.isSome then .error .bearerAndAuthToken
    else if username.isSome || password.isSome then .error .basicAndAuthToken
    else .ok [httpAuthToken t]
  | none =>
    match bearerToken with
    | some t =>
      if username.isSome || password.isSome then .error .basicAndBearerToken
      else .ok [httpAuthBearer t, httpAuthBasic t []]
    | none =>
      match username with
      | some name => .ok [httpAuthBasic name (password.getD [])]
      | none => .error .missing

/-! ### The map -/

/-- Inserts a token, which must be new. -/
def insertToken (users : List UserInfo) (ui : UserInfo) (idx : ℕ) (tokens : List (Bytes × ℕ))
    (token : Bytes) : Except AuthError (List (Bytes × ℕ)) :=
  match findByKey fst token tokens with
  | some (_, oldIdx) =>
    let old := users[oldIdx]?
    .error (.duplicate token ui.username ui.name (old.bind UserInfo.username)
      (old.bind UserInfo.name))
  | none => .ok (setByKey fst (token, idx) tokens)

def insertUser (users : List UserInfo) (tokens : List (Bytes × ℕ)) (entry : UserInfo × ℕ) :
    Except AuthError (List (Bytes × ℕ)) := do
  let ui := entry.1
  let ats ← getAuthTokens ui.authToken ui.bearerToken ui.username ui.password
  ats.foldlM (insertToken users ui entry.2) tokens

def AuthMap.build (config : AuthConfig) : Except AuthError AuthMap := do
  let tokens ← config.users.zipIdx.foldlM (insertUser config.users) []
  .ok ⟨tokens, config.users, config.unauthorizedUser⟩

/-- The user of the first token that is in the map. -/
def AuthMap.lookup (map : AuthMap) (tokens : List Bytes) : Option UserInfo :=
  (tokens.findSome? fun t => (findByKey fst t map.tokens).map snd).bind fun idx => map.users[idx]?

/-- The value of a header as it is looked up: the scheme `Token` is read as `Bearer`. -/
def rewriteScheme (ah : Bytes) : Bytes :=
  match ah.dropPrefix? (ascii "Token ") with
  | some rest => ascii "Bearer " ++ rest
  | none => ah

def requestAuthTokens (authHeaders : List Bytes) (urlUserinfo : Option (Bytes × Bytes)) :
    List Bytes :=
  (authHeaders.filter (· ≠ [])).map (fun ah => httpAuthToken (rewriteScheme ah)) ++
    match urlUserinfo with
    | some (username, password) => if username ≠ [] then [httpAuthBasic username password] else []
    | none => []

/-! ### The encoder -/

theorem toNat_group (a b c : UInt8) :
    ((a.toUInt32 <<< 16) ||| (b.toUInt32 <<< 8) ||| c.toUInt32).toNat = Base64.group a b c := by
  have ha := a.toNat_lt
  have hb := b.toNat_lt
  have hc := c.toNat_lt
  have hshift : a.toNat <<< 16 % 2 ^ 32 = a.toNat <<< 16 :=
    Nat.mod_eq_of_lt (by rw [Nat.shiftLeft_eq]; omega)
  have hshift' : b.toNat <<< 8 % 2 ^ 32 = b.toNat <<< 8 :=
    Nat.mod_eq_of_lt (by rw [Nat.shiftLeft_eq]; omega)
  have hfirst : a.toNat <<< 16 ||| b.toNat <<< 8 = (a.toNat * 256 + b.toNat) <<< 8 := by
    rw [← Nat.shiftLeft_add_eq_or_of_lt (by rw [Nat.shiftLeft_eq]; omega)]
    simp only [Nat.shiftLeft_eq]
    omega
  have hsecond : (a.toNat * 256 + b.toNat) <<< 8 ||| c.toNat = Base64.group a b c := by
    rw [← Nat.shiftLeft_add_eq_or_of_lt hc, Nat.shiftLeft_eq, Base64.group]
    omega
  rw [← hsecond, ← hfirst]
  simp only [UInt32.toNat_or, UInt32.toNat_shiftLeft, UInt8.toNat_toUInt32]
  exact congrArg₂ (· ||| · ||| c.toNat) hshift hshift'

/-- The digits of a group as the shifts and masks of the source cut them. -/
theorem toNat_digit (n : UInt32) (i : ℕ) (hi : i < 32) :
    ((n >>> UInt32.ofNat i) &&& 0x3f).toNat = n.toNat / 2 ^ i % 64 := by
  have hofNat : (UInt32.ofNat i).toNat % 32 = i := by
    rw [UInt32.toNat_ofNat_of_lt' (show i < 2 ^ 32 by omega), Nat.mod_eq_of_lt hi]
  rw [UInt32.toNat_and, UInt32.toNat_shiftRight, hofNat, Nat.shiftRight_eq_div_pow]
  exact Nat.and_two_pow_sub_one_eq_mod _ 6

theorem base64Chunk_eq (a b c : UInt8) :
    base64Chunk [a, b, c] = Base64.symbols 4 (Base64.group a b c) ∧
      base64Chunk [a, b] = Base64.symbols 3 (Base64.group a b 0) ++ [Base64.pad] ∧
      base64Chunk [a] = Base64.symbols 2 (Base64.group a 0 0) ++ [Base64.pad, Base64.pad] := by
  have hdigit (n : UInt32) : ((n >>> 18) &&& 0x3f).toNat = n.toNat / 262144 % 64 ∧
      ((n >>> 12) &&& 0x3f).toNat = n.toNat / 4096 % 64 ∧ ((n >>> 6) &&& 0x3f).toNat =
      n.toNat / 64 % 64 ∧
      (n &&& 0x3f).toNat = n.toNat % 64 :=
    ⟨toNat_digit n 18 (by decide), toNat_digit n 12 (by decide), toNat_digit n 6 (by decide),
      Nat.and_two_pow_sub_one_eq_mod _ 6⟩
  have hsecond := toNat_group a b 0
  have hthird := toNat_group a 0 0
  refine ⟨?_, ?_, ?_⟩
  · simp only [base64Chunk, getD_cons_zero, getD_cons_succ, hdigit, toNat_group]
    rfl
  · simp only [base64Chunk, getD_cons_zero, getD_cons_succ, getD_nil, hdigit, hsecond]
    rfl
  · simp only [base64Chunk, getD_cons_zero, getD_cons_succ, getD_nil, hdigit, hthird]
    rfl

theorem base64StdEncode_eq (bytes : Bytes) : base64StdEncode bytes = Base64.encode bytes := by
  induction bytes using Base64.encode.induct with
  | case1 => rfl
  | case2 a => exact (base64Chunk_eq a 0 0).2.2
  | case3 a b => exact (base64Chunk_eq a b 0).2.1
  | case4 a b c rest ih => rw [base64StdEncode, ih, (base64Chunk_eq a b c).1, Base64.encode]

/-! ### The map of a config -/

variable {users : List UserInfo} {ats : List Bytes}

theorem insertToken_ok {ui : UserInfo} {idx : ℕ} {tokens tokens' : List (Bytes × ℕ)} {token : Bytes}
    (h : insertToken users ui idx tokens token = .ok tokens') :
    tokens' = tokens ++ [(token, idx)] ∧ token ∉ tokens.map fst := by
  rw [insertToken] at h
  split at h
  · cases h
  · rename_i hnone
    cases h
    have hnew : token ∉ tokens.map fst := findByKey_eq_none_iff.mp hnone
    exact ⟨setByKey_of_not_mem hnew, hnew⟩

theorem foldlM_insertToken_ok {ui : UserInfo} {idx : ℕ} {tokens tokens' : List (Bytes × ℕ)}
    (h : ats.foldlM (insertToken users ui idx) tokens = .ok tokens')
    (hnodup : (tokens.map fst).Nodup) :
    tokens' = tokens ++ ats.map (·, idx) ∧ (tokens'.map fst).Nodup := by
  induction ats generalizing tokens with
  | nil =>
    cases h
    exact ⟨(append_nil _).symm, hnodup⟩
  | cons token ats ih =>
    rw [foldlM_cons] at h
    rcases hinsert : insertToken users ui idx tokens token with err | tokens₁
    · rw [hinsert] at h
      cases h
    · rw [hinsert] at h
      obtain ⟨rfl, hnew⟩ := insertToken_ok hinsert
      have hnodup₁ : ((tokens ++ [(token, idx)]).map fst).Nodup := by
        rw [map_append]
        exact hnodup.append (nodup_singleton _) (disjoint_singleton.mpr hnew)
      obtain ⟨heq, hnodup'⟩ := ih h hnodup₁
      exact ⟨by rw [heq, append_assoc, map_cons, singleton_append], hnodup'⟩

/-- The tokens of a user, if the config of the user is valid. -/
def UserInfo.tokens (ui : UserInfo) : Except AuthError (List Bytes) :=
  getAuthTokens ui.authToken ui.bearerToken ui.username ui.password

theorem foldlM_insertUser_ok {entries : List (UserInfo × ℕ)} {tokens tokens' : List (Bytes × ℕ)}
    (h : entries.foldlM (insertUser users) tokens = .ok tokens') (hnodup : (tokens.map fst).Nodup) :
    (tokens'.map fst).Nodup ∧ (∀ entry ∈ entries, ∃ ats, entry.1.tokens = .ok ats) ∧
      ∀ token idx, (token, idx) ∈ tokens' ↔ (token, idx) ∈ tokens ∨
        ∃ ui ats, (ui, idx) ∈ entries ∧ ui.tokens = .ok ats ∧ token ∈ ats := by
  induction entries generalizing tokens with
  | nil =>
    cases h
    exact ⟨hnodup, nofun, fun token idx => by simp⟩
  | cons entry entries ih =>
    rw [foldlM_cons] at h
    rcases hats : entry.1.tokens with err | ats
    · have hfirst : insertUser users tokens entry = .error err := by
        rw [UserInfo.tokens] at hats
        rw [insertUser, hats]
        rfl
      rw [hfirst] at h
      cases h
    · have hfirst : insertUser users tokens entry = ats.foldlM
          (insertToken users entry.1 entry.2) tokens := by
        rw [UserInfo.tokens] at hats
        rw [insertUser, hats]
        rfl
      rcases hinsert : insertUser users tokens entry with err | tokens₁
      · rw [hinsert] at h
        cases h
      · rw [hinsert] at h
        rw [hfirst] at hinsert
        obtain ⟨rfl, hnodup₁⟩ := foldlM_insertToken_ok hinsert hnodup
        obtain ⟨hnodup', hvalid, hmem⟩ := ih h hnodup₁
        refine ⟨hnodup', forall_mem_cons.mpr ⟨⟨ats, hats⟩, hvalid⟩, fun token idx => ?_⟩
        rw [hmem, mem_append, mem_map, or_assoc]
        refine or_congr_right ⟨?_, ?_⟩
        · rintro (⟨t, ht, heq⟩ | ⟨ui, ats', hui, hrest⟩)
          · cases heq
            exact ⟨entry.1, ats, mem_cons_self, hats, ht⟩
          · exact ⟨ui, ats', mem_cons_of_mem _ hui, hrest⟩
        · rintro ⟨ui, ats', hui, htokens, ht⟩
          rcases mem_cons.mp hui with heq | hui
          · cases heq
            rw [hats] at htokens
            cases htokens
            exact .inl ⟨token, ht, rfl⟩
          · exact .inr ⟨ui, ats', hui, htokens, ht⟩

/-- A map that is built leads every token of a user to this user, and to no other. -/
theorem build_ok {config : AuthConfig} {map : AuthMap} (h : AuthMap.build config = .ok map) :
    map.users = config.users ∧ (map.tokens.map fst).Nodup ∧
      (∀ ui ∈ config.users, ∃ ats, ui.tokens = .ok ats) ∧ ∀ token idx, (token, idx) ∈ map.tokens ↔
          ∃ ui ats, config.users[idx]? = some ui ∧ ui.tokens = .ok ats ∧ token ∈ ats := by
  rw [AuthMap.build] at h
  rcases hfold : config.users.zipIdx.foldlM (insertUser config.users) [] with err | tokens
  · rw [hfold] at h
    cases h
  · rw [hfold] at h
    cases h
    obtain ⟨hnodup, hvalid, hmem⟩ := foldlM_insertUser_ok hfold nodup_nil
    refine ⟨rfl, hnodup, fun ui hui => ?_, fun token idx => ?_⟩
    · obtain ⟨idx, hidx⟩ := getElem?_of_mem hui
      exact hvalid _ (mk_mem_zipIdx_iff_getElem?.mpr hidx)
    · simp only [hmem, not_mem_nil, false_or, mk_mem_zipIdx_iff_getElem?]

/-! ### What a header is looked up as -/

/-- The value of a header that is a credential of a user. -/
inductive IsCredential (u : UserInfo) : Bytes → Prop where
  | authToken {t : Bytes} (h : nonEmpty u.authToken = some t) : IsCredential u t
  | bearer {t : Bytes} (h : nonEmpty u.bearerToken = some t) : IsCredential u (ascii "Bearer " ++ t)
  | token {t : Bytes} (h : nonEmpty u.bearerToken = some t) : IsCredential u (ascii "Token " ++ t)
  | bearerAsBasic {t : Bytes} (h : nonEmpty u.bearerToken = some t) :
    IsCredential u (ascii "Basic " ++ Base64.encode (t ++ ascii ":"))
  | basic {name : Bytes} (h : nonEmpty u.username = some name) :
    IsCredential u (ascii "Basic " ++ Base64.encode (name ++ ':'.toUInt8 ::
      (nonEmpty u.password).getD []))

/-- The value of a header that the scheme `Token` makes a credential of a user: the `auth_token` has
the scheme `Bearer`. -/
def IsRewrittenCredential (u : UserInfo) (h : Bytes) : Prop :=
  ∃ t, nonEmpty u.authToken = some (ascii "Bearer " ++ t) ∧ h = ascii "Token " ++ t

theorem rewriteScheme_token (t : Bytes) : rewriteScheme (ascii "Token " ++ t) =
    ascii "Bearer " ++ t := by
  have h : (ascii "Token " ++ t).dropPrefix? (ascii "Token ") = some t :=
    dropPrefix?_eq_some_iff.mpr ⟨_, rfl, beq_self_eq_true _⟩
  rw [rewriteScheme, h]

theorem rewriteScheme_of_not {h : Bytes} (hscheme : ¬ ascii "Token " <+: h) :
    rewriteScheme h = h := by
  rcases hdrop : h.dropPrefix? (ascii "Token ") with _ | rest
  · rw [rewriteScheme, hdrop]
  · obtain ⟨first, rfl, hfirst⟩ := dropPrefix?_eq_some_iff.mp hdrop
    obtain rfl := eq_of_beq hfirst
    exact absurd (prefix_append _ _) hscheme

/-- The values that are looked up as a value. -/
theorem rewriteScheme_eq_iff {h v : Bytes} (hv : ¬ ascii "Token " <+: v) :
    rewriteScheme h = v ↔ h = v ∨ ∃ t, v = ascii "Bearer " ++ t ∧ h = ascii "Token " ++ t := by
  constructor
  · intro heq
    by_cases hscheme : ascii "Token " <+: h
    · obtain ⟨t, rfl⟩ := hscheme
      rw [rewriteScheme_token] at heq
      exact .inr ⟨t, heq.symm, rfl⟩
    · rw [rewriteScheme_of_not hscheme] at heq
      exact .inl heq
  · rintro (rfl | ⟨t, rfl, rfl⟩)
    · exact rewriteScheme_of_not hv
    · exact rewriteScheme_token t

theorem nonEmpty_ne_nil {v : Option Bytes} {t : Bytes} (h : nonEmpty v = some t) : t ≠ [] := by
  simpa using (Option.filter_eq_some_iff.mp h).2

theorem httpAuthToken_injective : Function.Injective httpAuthToken := fun _ _ h =>
  append_cancel_left h

theorem httpAuthBearer_eq (t : Bytes) : httpAuthBearer t =
    httpAuthToken (ascii "Bearer " ++ t) := by
  rw [httpAuthBearer, httpAuthToken, ← append_assoc]
  rfl

theorem httpAuthBasic_eq (username password : Bytes) : httpAuthBasic username password =
    httpAuthToken (ascii "Basic " ++ Base64.encode (username ++ ':'.toUInt8 :: password)) := by
  rw [httpAuthBasic, httpAuthToken, ← append_assoc, base64StdEncode_eq]
  rfl

theorem not_token_bearer (t : Bytes) : ¬ ascii "Token " <+: ascii "Bearer " ++ t :=
  fun h => absurd (cons_prefix_cons.mp h).1 (by decide)

theorem not_token_basic (t : Bytes) : ¬ ascii "Token " <+: ascii "Basic " ++ t :=
  fun h => absurd (cons_prefix_cons.mp h).1 (by decide)

theorem bearer_ne_basic (t v : Bytes) : ascii "Bearer " ++ t ≠ ascii "Basic " ++ v :=
  fun h => absurd (List.cons.inj (List.cons.inj h).2).1 (by decide)

/-- What a valid user has: one kind of credential. -/
inductive UserInfo.Kind (u : UserInfo) : List Bytes → Prop where
  | authToken {t : Bytes} (h : nonEmpty u.authToken = some t)
    (hbearer : nonEmpty u.bearerToken = none)
    (hname : nonEmpty u.username = none) : Kind u [httpAuthToken t]
  | bearer {t : Bytes} (hauth : nonEmpty u.authToken = none) (h : nonEmpty u.bearerToken = some t)
    (hname : nonEmpty u.username = none) : Kind u [httpAuthBearer t, httpAuthBasic t []]
  | basic {name : Bytes} (hauth : nonEmpty u.authToken = none)
    (hbearer : nonEmpty u.bearerToken = none)
    (h : nonEmpty u.username = some name) :
    Kind u [httpAuthBasic name ((nonEmpty u.password).getD [])]

theorem UserInfo.kind_of_tokens {u : UserInfo} (h : u.tokens = .ok ats) : u.Kind ats := by
  simp only [UserInfo.tokens, getAuthTokens] at h
  rcases hauth : nonEmpty u.authToken with _ | t
  · rw [hauth] at h
    rcases hbearer : nonEmpty u.bearerToken with _ | t
    · rw [hbearer] at h
      rcases hname : nonEmpty u.username with _ | name
      · rw [hname] at h
        cases h
      · rw [hname] at h
        cases h
        exact .basic hauth hbearer hname
    · rw [hbearer] at h
      rcases hname : nonEmpty u.username with _ | name
      · rw [hname] at h
        dsimp only at h
        split at h
        · cases h
        · cases h
          exact .bearer hauth hbearer hname
      · rw [hname] at h
        cases h
  · rw [hauth] at h
    rcases hbearer : nonEmpty u.bearerToken with _ | t'
    · rw [hbearer] at h
      rcases hname : nonEmpty u.username with _ | name
      · rw [hname] at h
        dsimp only [Option.isSome_none] at h
        split at h
        · cases h
        · split at h
          · cases h
          · cases h
            exact .authToken hauth hbearer hname
      · rw [hname] at h
        cases h
    · rw [hbearer] at h
      cases h

/-- The tokens of a user are the values that its credentials are looked up as. -/
theorem mem_tokens_iff {u : UserInfo} (hats : u.tokens = .ok ats)
    (hscheme : ∀ t, nonEmpty u.authToken = some t → ¬ ascii "Token " <+: t) (h : Bytes) :
    httpAuthToken (rewriteScheme h) ∈ ats ↔ IsCredential u h ∨ IsRewrittenCredential u h := by
  cases u.kind_of_tokens hats with
  | authToken hauth hbearer hname =>
    rename_i t
    rw [mem_singleton, httpAuthToken_injective.eq_iff, rewriteScheme_eq_iff (hscheme t hauth)]
    constructor
    · rintro (rfl | ⟨v, rfl, rfl⟩)
      · exact .inl (.authToken hauth)
      · exact .inr ⟨v, hauth, rfl⟩
    · rintro (hcred | ⟨v, hv, rfl⟩)
      · cases hcred with
        | authToken ht => exact .inl (Option.some.inj (ht.symm.trans hauth))
        | bearer ht => cases hbearer.symm.trans ht
        | token ht => cases hbearer.symm.trans ht
        | bearerAsBasic ht => cases hbearer.symm.trans ht
        | basic ht => cases hname.symm.trans ht
      · exact .inr ⟨v, Option.some.inj (hauth.symm.trans hv), rfl⟩
  | bearer hauth hbearer hname =>
    rename_i t
    rw [httpAuthBearer_eq, httpAuthBasic_eq, mem_pair, httpAuthToken_injective.eq_iff,
      httpAuthToken_injective.eq_iff, rewriteScheme_eq_iff (not_token_bearer t),
      rewriteScheme_eq_iff (not_token_basic _)]
    constructor
    · rintro ((rfl | ⟨v, hv, rfl⟩) | (rfl | ⟨v, hv, rfl⟩))
      · exact .inl (.bearer hbearer)
      · rw [← append_cancel_left hv]
        exact .inl (.token hbearer)
      · exact .inl (.bearerAsBasic hbearer)
      · exact absurd hv.symm (bearer_ne_basic _ _)
    · rintro (hcred | ⟨v, hv, -⟩)
      · cases hcred with
        | authToken ht => cases hauth.symm.trans ht
        | bearer ht =>
          rw [hbearer] at ht
          cases ht
          exact .inl (.inl rfl)
        | token ht =>
          rw [hbearer] at ht
          cases ht
          exact .inl (.inr ⟨t, rfl, rfl⟩)
        | bearerAsBasic ht =>
          rw [hbearer] at ht
          cases ht
          exact .inr (.inl rfl)
        | basic ht => cases hname.symm.trans ht
      · cases hauth.symm.trans hv
  | basic hauth hbearer hname =>
    rename_i name
    rw [mem_singleton, httpAuthBasic_eq, httpAuthToken_injective.eq_iff,
      rewriteScheme_eq_iff (not_token_basic _)]
    constructor
    · rintro (rfl | ⟨v, hv, rfl⟩)
      · exact .inl (.basic hname)
      · exact absurd hv.symm (bearer_ne_basic _ _)
    · rintro (hcred | ⟨v, hv, -⟩)
      · cases hcred with
        | authToken ht => cases hauth.symm.trans ht
        | bearer ht => cases hbearer.symm.trans ht
        | token ht => cases hbearer.symm.trans ht
        | bearerAsBasic ht => cases hbearer.symm.trans ht
        | basic ht =>
          rw [hname] at ht
          cases ht
          exact .inl rfl
      · cases hauth.symm.trans hv

/-- The `auth_token` of a user does not have the scheme `Token`. -/
def UserInfo.NoTokenScheme (u : UserInfo) : Prop :=
  ∀ t, nonEmpty u.authToken = some t → ¬ ascii "Token " <+: t

/-- The headers that a user is accepted with. -/
def UserInfo.Accepts (u : UserInfo) (h : Bytes) : Prop :=
  IsCredential u h ∨ IsRewrittenCredential u h

theorem UserInfo.Accepts.ne_nil {u : UserInfo} {h : Bytes} (haccepts : u.Accepts h) : h ≠ [] := by
  obtain hcred | ⟨t, -, rfl⟩ := haccepts
  · cases hcred with
    | authToken ht => exact nonEmpty_ne_nil ht
    | bearer ht => exact cons_ne_nil _ _
    | token ht => exact cons_ne_nil _ _
    | bearerAsBasic ht => exact cons_ne_nil _ _
    | basic ht => exact cons_ne_nil _ _
  · exact cons_ne_nil _ _

/-- A header is looked up by one token. -/
theorem lookup_header (map : AuthMap) {h : Bytes} (hne : h ≠ []) :
    map.lookup (requestAuthTokens [h] none) =
      ((findByKey fst (httpAuthToken (rewriteScheme h)) map.tokens).map snd).bind
        fun idx => map.users[idx]? := by
  rw [AuthMap.lookup, requestAuthTokens, filter_cons_of_pos (by simpa using hne)]
  simp only [filter_nil, map_cons, map_nil, append_nil, findSome?_cons,
    findSome?_nil]
  cases findByKey fst (httpAuthToken (rewriteScheme h)) map.tokens with
  | none => rfl
  | some entry => rfl

section

variable {config : AuthConfig} {map : AuthMap}

/-- The token of a header leads to the users that accept the header. -/
theorem mem_tokens_of_build (hbuild : AuthMap.build config = .ok map) {h : Bytes}
    {u : UserInfo} {idx : ℕ}
    (hidx : config.users[idx]? = some u) (hscheme : u.NoTokenScheme) :
    (httpAuthToken (rewriteScheme h), idx) ∈ map.tokens ↔ u.Accepts h := by
  obtain ⟨-, -, hvalid, hmem⟩ := build_ok hbuild
  obtain ⟨ats, hats⟩ := hvalid u (mem_of_getElem? hidx)
  rw [hmem, UserInfo.Accepts, ← mem_tokens_iff hats hscheme]
  constructor
  · rintro ⟨ui, ats', hui, hats', ht⟩
    obtain rfl : u = ui := Option.some.inj (hidx.symm.trans hui)
    rw [hats] at hats'
    cases hats'
    exact ht
  · exact fun ht => ⟨u, ats, hidx, hats, ht⟩

/-- A header is looked up as the user that it is a credential of, and no header is a credential of
two users. -/
theorem lookup_credential (hbuild : AuthMap.build config = .ok map) (h : Bytes) :
    (∀ u : UserInfo, u.NoTokenScheme →
      (map.lookup (requestAuthTokens [h] none) = some u ↔ u ∈ config.users ∧ u.Accepts h)) ∧
    ∀ (i j : ℕ) (u v : UserInfo), config.users[i]? = some u → config.users[j]? = some v →
      u.NoTokenScheme → v.NoTokenScheme → u.Accepts h → v.Accepts h → i = j := by
  obtain ⟨husers, hnodup, -, -⟩ := build_ok hbuild
  constructor
  · intro u hscheme
    constructor
    · intro hlookup
      have hne : h ≠ [] := by
        -- an empty header gives no token
        rintro rfl
        cases hlookup
      rw [lookup_header map hne, husers] at hlookup
      obtain ⟨idx, hentry, hidx⟩ := Option.bind_eq_some_iff.mp hlookup
      obtain ⟨⟨token, idx'⟩, hfind, rfl⟩ := Option.map_eq_some_iff.mp hentry
      obtain ⟨hmem, rfl⟩ := mem_of_findByKey hfind
      exact ⟨mem_of_getElem? hidx, (mem_tokens_of_build hbuild hidx hscheme).mp hmem⟩
    · rintro ⟨hu, haccepts⟩
      obtain ⟨idx, hidx⟩ := getElem?_of_mem hu
      have hmem := (mem_tokens_of_build hbuild hidx hscheme).mpr haccepts
      have hfind := (findByKey_eq_some_iff hnodup).mpr ⟨hmem, rfl⟩
      rw [lookup_header map haccepts.ne_nil, hfind, husers]
      exact hidx
  · intro i j u v hi hj hu hv haccepts haccepts'
    have hmem := (mem_tokens_of_build hbuild hi hu).mpr haccepts
    have hmem' := (mem_tokens_of_build hbuild hj hv).mpr haccepts'
    have hfind := (findByKey_eq_some_iff hnodup).mpr ⟨hmem, rfl⟩
    have hfind' := (findByKey_eq_some_iff hnodup).mpr ⟨hmem', rfl⟩
    rw [hfind] at hfind'
    cases hfind'
    rfl

end

/-- A user with nothing but an `auth_token`. -/
def userWithAuthToken (t : Bytes) : UserInfo := ⟨none, none, some t, none, none⟩

/-- A user with nothing but a `bearer_token`. -/
def userWithBearerToken (t : Bytes) : UserInfo := ⟨none, some t, none, none, none⟩

theorem lookup_bearerToken : ∃ map,
    AuthMap.build ⟨[userWithBearerToken (ascii "tok"), userWithAuthToken (ascii "plain")],
      none⟩ = .ok map ∧
      ∀ h, map.lookup (requestAuthTokens [h] none) = some (userWithBearerToken (ascii "tok")) ↔
        userWithBearerToken (ascii "tok") ∈
          [userWithBearerToken (ascii "tok"), userWithAuthToken (ascii "plain")] ∧
        (userWithBearerToken (ascii "tok")).Accepts h := by
  have hbuild : AuthMap.build
      ⟨[userWithBearerToken (ascii "tok"), userWithAuthToken (ascii "plain")], none⟩ = .ok _ := rfl
  exact ⟨_, hbuild, fun h => (lookup_credential hbuild h).1
    (userWithBearerToken (ascii "tok")) nofun⟩

/-- A header with the scheme `Token` is looked up as if it had the scheme `Bearer`, also when
`auth_token` is configured with one of the two. -/
theorem not_lookup_credential :
    (∃ map, AuthMap.build ⟨[userWithAuthToken (ascii "Bearer t")], none⟩ = .ok map ∧
      map.lookup (requestAuthTokens [ascii "Token t"] none) =
      some (userWithAuthToken (ascii "Bearer t")) ∧
      ¬ IsCredential (userWithAuthToken (ascii "Bearer t")) (ascii "Token t")) ∧
    ∃ map, AuthMap.build ⟨[userWithAuthToken (ascii "Token t")], none⟩ = .ok map ∧
      map.lookup (requestAuthTokens [ascii "Token t"] none) = none ∧
      IsCredential (userWithAuthToken (ascii "Token t")) (ascii "Token t") := by
  refine ⟨⟨_, rfl, by decide, fun h => ?_⟩, ⟨_, rfl, by decide, .authToken rfl⟩⟩
  generalize hv : ascii "Token t" = v at h
  cases h with
  | authToken ht =>
    have hne : nonEmpty (some (ascii "Bearer t")) ≠ some (ascii "Token t") := by decide
    exact hne (hv ▸ ht)
  | bearer ht => cases ht
  | token ht => cases ht
  | bearerAsBasic ht => cases ht
  | basic ht => cases ht

end Esmetrics.Auth
