import Wjetcd.Lib.Text
import Wjetcd.Server.Apply

/-! Reading a key over HTTP: `HTTPHandler.Get` of `server/handler.go` and `httpGet` of
`cmd/client/client.go`.

The handler writes the value between quotes as it is. The client looks for the member's name
and takes what it finds up to the next quote. No rule says how a quote in the value is written, so
`httpGet_value_iff`: the client gets the stored value exactly if it has none. -/
namespace Wjetcd
open Text

def Server.get (s : Server) (key : Bytes) : Bytes := s.machine.store.get key

/-! ### The handler -/

/-- A request as the handler sees it: its method, and `key` of the query. -/
structure Request where
  method : Bytes
  key : Bytes

structure Response where
  status : Nat
  body : Bytes
deriving DecidableEq

def HTTPHandler.get (s : Server) (r : Request) : Response :=
  if r.method ≠ ascii "GET" then ⟨405, ascii "Method not allowed\n"⟩
  else if r.key = [] then ⟨400, ascii "\x7b\"ok\":false,\"error\":\"key required\"\x7d"⟩
  else ⟨200, ascii "\x7b\"ok\":true,\"value\":\"" ++ s.get r.key ++ ascii "\"\x7d"⟩

/-! ### The client -/

namespace Client

def quote : UInt8 := 0x22

def marker : Bytes := ascii "\"value\":\""

/-- What the client finds in a body. -/
def extract (content : Bytes) : Option Bytes :=
  match index marker content with
  | none => none
  | some idx =>
    let start := idx + 9
    match index [quote] (content.drop start) with
    | none => none
    | some nextQuote =>
      let val := (content.drop start).take nextQuote
      if val.length > 0 then some val else none

/-- One iteration of the loop over the addresses, with what came back: nothing, if the server could
not be reached. -/
def visit : Option Response → Option Bytes
  | none => none
  | some resp => if resp.status ≠ 200 then none else extract resp.body

def httpGet : List (Option Response) → Except String Bytes
  | [] => .error "key not found"
  | answer :: rest =>
    match visit answer with
    | some val => .ok val
    | none => httpGet rest

/-! ### What is found -/

/-- Whatever is found, it has no quote in it. -/
theorem extract_unquoted {content val : Bytes} (h : extract content = some val) : quote ∉ val := by
  unfold extract at h
  split at h
  · cases h
  · dsimp only at h
    split at h
    · cases h
    · rename_i nextQuote hquote
      split at h
      · cases h
        exact not_mem_take_index hquote
      · cases h

theorem visit_unquoted {answer : Option Response} {val : Bytes} (h : visit answer = some val) :
    quote ∉ val := by
  cases answer with
  | none => cases h
  | some resp =>
    rw [visit] at h
    split at h
    · cases h
    · exact extract_unquoted h

theorem httpGet_unquoted {answers : List (Option Response)} {val : Bytes}
    (h : httpGet answers = .ok val) : quote ∉ val := by
  induction answers with
  | nil => cases h
  | cons answer rest ih =>
    rw [httpGet] at h
    split at h
    · rename_i found hfound
      cases h
      exact visit_unquoted hfound
    · exact ih h

/-- Answers that give nothing are passed over. -/
theorem httpGet_append {before : List (Option Response)} (h : ∀ answer ∈ before, visit answer = none)
    (after : List (Option Response)) : httpGet (before ++ after) = httpGet after := by
  induction before with
  | nil => rfl
  | cons answer rest ih =>
    rw [List.cons_append, httpGet, h answer List.mem_cons_self]
    exact ih fun other hother => h other (List.mem_cons_of_mem _ hother)

/-- A value between quotes ends, for a search, at the first quote of its own. -/
theorem takeWhile_quote (value rest : Bytes) : ∃ later,
    value ++ quote :: rest = value.takeWhile (· ≠ quote) ++ quote :: later := by
  induction value with
  | nil => exact ⟨rest, rfl⟩
  | cons b value ih =>
    by_cases hb : b = quote
    · exact ⟨value ++ quote :: rest, by simp [hb]⟩
    · obtain ⟨later, hlater⟩ := ih
      refine ⟨later, ?_⟩
      rw [List.takeWhile_cons_of_pos (by simpa using hb), List.cons_append, hlater, List.cons_append]

theorem quote_not_mem_takeWhile (value : Bytes) : quote ∉ value.takeWhile (· ≠ quote) := by
  intro hmem
  simpa using List.mem_takeWhile_imp hmem

/-- The member's text up to the next quote is found, unless it is empty. -/
theorem extract_member {value : Bytes} (h : quote ∉ value) (later : Bytes) :
    extract (ascii "\x7b\"ok\":true," ++ marker ++ (value ++ quote :: later)) =
      if value = [] then none else some value := by
  have hmarker := @index_append _ _ marker (ascii "\x7b\"ok\":true,") (by decide)
    (value ++ quote :: later)
  have hstart : (ascii "\x7b\"ok\":true,").length + 9 =
      (ascii "\x7b\"ok\":true," ++ marker).length := by decide
  rw [extract, hmarker]
  dsimp only
  rw [hstart, List.drop_left, index_letter h]
  dsimp only
  rw [List.take_left]
  by_cases hnil : value = []
  · rw [if_pos hnil, hnil]
    rfl
  · rw [if_neg hnil]
    exact if_pos (List.length_pos_iff.mpr hnil)

/-- What the client finds in the handler's body: the value up to its first quote. -/
theorem extract_get (s : Server) {key : Bytes} (hkey : key ≠ []) :
    extract (HTTPHandler.get s ⟨ascii "GET", key⟩).body =
      if (s.get key).takeWhile (· ≠ quote) = [] then none
      else some ((s.get key).takeWhile (· ≠ quote)) := by
  obtain ⟨later, hlater⟩ := takeWhile_quote (s.get key) (ascii "\x7d")
  have hbody : (HTTPHandler.get s ⟨ascii "GET", key⟩).body =
      ascii "\x7b\"ok\":true," ++ marker ++
        ((s.get key).takeWhile (· ≠ quote) ++ quote :: later) := by
    rw [HTTPHandler.get, if_neg (by simp), if_neg hkey, ← hlater]
    dsimp only
    rw [List.append_assoc]
    rfl
  rw [hbody]
  exact extract_member (quote_not_mem_takeWhile _) later

theorem visit_get (s : Server) {key : Bytes} (hkey : key ≠ []) :
    visit (some (HTTPHandler.get s ⟨ascii "GET", key⟩)) =
      extract (HTTPHandler.get s ⟨ascii "GET", key⟩).body := by
  have hstatus : (HTTPHandler.get s ⟨ascii "GET", key⟩).status = 200 := by
    rw [HTTPHandler.get, if_neg (by simp), if_neg hkey]
  rw [visit, if_neg (by simp [hstatus])]

/-- The empty key is an error, in which nothing is found. -/
theorem extract_get_nil (s : Server) : extract (HTTPHandler.get s ⟨ascii "GET", []⟩).body = none := by
  rw [HTTPHandler.get, if_neg (by simp), if_pos rfl]
  decide

/-- A value without a quote is found as it is. -/
theorem extract_get_whole (s : Server) {key : Bytes} (hkey : key ≠ []) (hvalue : s.get key ≠ [])
    (hclean : quote ∉ s.get key) :
    extract (HTTPHandler.get s ⟨ascii "GET", key⟩).body = some (s.get key) := by
  have hself : (s.get key).takeWhile (· ≠ quote) = s.get key := by
    rw [List.takeWhile_eq_self_iff]
    intro b hb
    simp only [decide_eq_true_eq]
    rintro rfl
    exact hclean hb
  rw [extract_get s hkey, hself, if_neg hvalue]

/-- **The client finds the stored value exactly if there is a key and no quote in the value.** It then
also returns it, whatever the servers it asked before have failed with. What it finds in the
answer is the value up to its first quote, and if this is nothing, it asks the next server. -/
theorem httpGet_value_iff (s : Server) (key : Bytes) (hvalue : s.get key ≠ []) :
    (extract (HTTPHandler.get s ⟨ascii "GET", key⟩).body = some (s.get key) ↔
      key ≠ [] ∧ quote ∉ s.get key) ∧
    (key ≠ [] → ∀ before after : List (Option Response), (∀ answer ∈ before, visit answer = none) →
      (httpGet (before ++ some (HTTPHandler.get s ⟨ascii "GET", key⟩) :: after) = .ok (s.get key) ↔
        quote ∉ s.get key)) ∧
    (key ≠ [] → extract (HTTPHandler.get s ⟨ascii "GET", key⟩).body =
      if (s.get key).takeWhile (· ≠ quote) = [] then none
      else some ((s.get key).takeWhile (· ≠ quote))) := by
  refine ⟨⟨fun hfound => ⟨?_, extract_unquoted hfound⟩, ?_⟩, ?_, extract_get s⟩
  · rintro rfl
    rw [extract_get_nil] at hfound
    cases hfound
  · rintro ⟨hkey, hclean⟩
    exact extract_get_whole s hkey hvalue hclean
  · intro hkey before after hbefore
    refine ⟨httpGet_unquoted, fun hclean => ?_⟩
    rw [httpGet_append hbefore, httpGet, visit_get s hkey, extract_get_whole s hkey hvalue hclean]

/-- A server that has applied one put. -/
def afterPut (key value : Bytes) : Server :=
  (Server.fresh.applyLoop ⟨Env.at 0, {Command.ofType .put with key := key, value := value}, none⟩).server

/-- The first server cannot be reached, the second one has the value. -/
theorem httpGet_value_plain :
    httpGet [none, some (HTTPHandler.get (afterPut (ascii "k") (ascii "v")) ⟨ascii "GET", ascii "k"⟩)] =
      .ok (ascii "v") :=
  ((httpGet_value_iff (afterPut (ascii "k") (ascii "v")) (ascii "k") (by decide +kernel)).2.1 (by decide)
    [none] [] (by decide)).mpr (by decide +kernel)

/-- Put `a"b`, and the client finds `a`. -/
theorem httpGet_value_quoted :
    ¬∀ (s : Server) (key : Bytes), key ≠ [] → s.get key ≠ [] →
      httpGet [some (HTTPHandler.get s ⟨ascii "GET", key⟩)] = .ok (s.get key) := by
  intro h
  have hget := h (afterPut (ascii "k") (ascii "a\"b")) (ascii "k") (by decide) (by decide +kernel)
  revert hget
  decide +kernel

end Client

end Wjetcd
