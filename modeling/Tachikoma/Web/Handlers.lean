import Tachikoma.Requests
import Tachikoma.Web.HostInfo
import Tachikoma.Web.Pages

/-!
# What the handlers answer (`src/web/api.rs`, `src/web/hosts.rs`, `src/mcp/mod.rs`)

The handlers that lease and release, from what they are sent to what they answer, for a user who has
been let in. A handler of the API answers with a status and a body, one of the tools with a value or
an error, and one of the pages with a redirection and, if something went wrong, a message for the
next page. A request that the frameworks do not read (`rejected`) reaches no handler.
-/

set_option autoImplicit false

namespace Tachikoma

open Serde

/-- No handler returns an error. -/
abbrev Infallible : Type := Empty

/-- `Display`. -/
def HostError.message : HostError → String
  | .databaseError _ => "Database error"
  | .thereIsNoFreeHosts => "There is no free hosts"
  | .alreadyLeased _ => "Host is already leased"
  | .leaseLimit => "Hosts lease limit is reached"
  | .unexpectedError _ => "Unexpected error"

inductive StatusCode where
  | ok
  | noContent
  | badRequest
  | conflict
  | internalServerError
  deriving DecidableEq, Repr

/-- `From<LeasedHost>`, with the reading of the clock that each of them takes. -/
def HostInfo.ofLeasedHosts {ε : Type} : List LeasedHost → Task ε (List HostInfo)
  | [] => return []
  | host :: rest => do
    let now ← utcNow
    let infos ← ofLeasedHosts rest
    return HostInfo.ofLeasedHost now host :: infos

/-! ## The JSON API -/

inductive ApiBody where
  | empty
  | hosts (infos : List HostInfo)
  | host (info : HostInfo)
  /-- `ErrorBody`. -/
  | error (error : String)
  deriving DecidableEq, Repr

inductive ApiResponse where
  | rejected (e : DecodeError)
  | response (status : StatusCode) (body : ApiBody)
  deriving DecidableEq

def ApiResponse.isOk : ApiResponse → Bool
  | .response .ok _ => true
  | .response .noContent _ => true
  | _ => false

def hostErrorResponse (err : HostError) : ApiResponse :=
  let status := match err with
    | .thereIsNoFreeHosts => StatusCode.conflict
    | .alreadyLeased _ => .conflict
    | .leaseLimit => .conflict
    | .databaseError _ => .internalServerError
    | .unexpectedError _ => .internalServerError
  .response status (.error err.message)

namespace Api

def leaseHosts (hostsService : HostsService) (user : AuthUser) (body : Json) :
    Task Infallible ApiResponse :=
  match LeaseRequest.decode body with
  | .error e => return .rejected e
  | .ok body =>
    match leaseDuration body.days body.hours with
    | .error msg => return .response .badRequest (.error msg)
    | .ok duration => do
      match ← (hostsService.lease user.id user.groups body.hostsIds duration).attempt with
      | .ok hosts => do
        let infos ← HostInfo.ofLeasedHosts hosts
        return .response .ok (.hosts infos)
      | .error err => return hostErrorResponse err

def leaseRandom (hostsService : HostsService) (user : AuthUser) (body : Json) :
    Task Infallible ApiResponse :=
  match LeaseRandomRequest.decode body with
  | .error e => return .rejected e
  | .ok body =>
    match leaseDuration body.days body.hours with
    | .error msg => return .response .badRequest (.error msg)
    | .ok duration => do
      match ← (hostsService.leaseRandom user.id user.groups duration body.groupId).attempt with
      | .ok host => do
        let now ← utcNow
        return .response .ok (.host (HostInfo.ofLeasedHost now host))
      | .error err => return hostErrorResponse err

def releaseHosts (user : AuthUser) (body : Json) : Task Infallible ApiResponse :=
  match ReleaseRequest.decode body with
  | .error e => return .rejected e
  | .ok body => do
    match ← (HostsService.free user.id body.hostsIds).attempt with
    | .ok () => return .response .noContent .empty
    | .error err => return hostErrorResponse err

def releaseAll (user : AuthUser) : Task Infallible ApiResponse := do
  match ← (HostsService.freeAll user.id).attempt with
  | .ok () => return .response .noContent .empty
  | .error err => return hostErrorResponse err

end Api

/-! ## The tools -/

inductive McpErrorKind where
  | invalidParams
  | internalError
  deriving DecidableEq, Repr

structure McpError where
  kind : McpErrorKind
  message : String
  deriving DecidableEq, Repr

inductive ToolContent where
  | hosts (infos : List HostInfo)
  | host (info : HostInfo)
  /-- `{"ok": true}`. -/
  | done
  deriving DecidableEq, Repr

inductive ToolResponse where
  | rejected (e : DecodeError)
  | error (e : McpError)
  | success (content : ToolContent)
  deriving DecidableEq

def ToolResponse.isOk : ToolResponse → Bool
  | .success _ => true
  | _ => false

def hostError (err : HostError) : McpError := ⟨.internalError, err.message⟩

namespace TachikomaMcp

def leaseHosts (hostsService : HostsService) (user : AuthUser) (args : Json) :
    Task Infallible ToolResponse :=
  match LeaseHostsArgs.decode args with
  | .error e => return .rejected e
  | .ok args =>
    match leaseDuration args.days args.hours with
    | .error msg => return .error ⟨.invalidParams, msg⟩
    | .ok duration => do
      let hostsIds := args.hostsIds.map HostId.mk
      match ← (hostsService.lease user.id user.groups hostsIds duration).attempt with
      | .ok hosts => do
        let infos ← HostInfo.ofLeasedHosts hosts
        return .success (.hosts infos)
      | .error err => return .error (hostError err)

def leaseRandomHost (hostsService : HostsService) (user : AuthUser) (args : Json) :
    Task Infallible ToolResponse :=
  match LeaseRandomArgs.decode args with
  | .error e => return .rejected e
  | .ok args =>
    match leaseDuration args.days args.hours with
    | .error msg => return .error ⟨.invalidParams, msg⟩
    | .ok duration => do
      match ← (hostsService.leaseRandom user.id user.groups duration ⟨args.groupId⟩).attempt with
      | .ok host => do
        let now ← utcNow
        return .success (.host (HostInfo.ofLeasedHost now host))
      | .error err => return .error (hostError err)

def releaseHosts (user : AuthUser) (args : Json) : Task Infallible ToolResponse :=
  match ReleaseHostsArgs.decode args with
  | .error e => return .rejected e
  | .ok args => do
    match ← (HostsService.free user.id (args.hostsIds.map HostId.mk)).attempt with
    | .ok () => return .success .done
    | .error err => return .error (hostError err)

def releaseAllHosts (user : AuthUser) : Task Infallible ToolResponse := do
  match ← (HostsService.freeAll user.id).attempt with
  | .ok () => return .success .done
  | .error err => return .error (hostError err)

end TachikomaMcp

/-! ## The pages -/

inductive PageResponse where
  | rejected (e : DecodeError)
  /-- `Redirect::to`, with the message that is left for the next page. -/
  | redirect (flash : Option (FlashLevel × String)) (uri : String)
  deriving DecidableEq

def PageResponse.isOk : PageResponse → Bool
  | .redirect none _ => true
  | _ => false

namespace Page

def leaseHosts (service : HostsService) (user : AuthUser) (form : Form) :
    Task Infallible PageResponse :=
  match LeaseForm.decode form with
  | .error e => return .rejected e
  | .ok data => do
    let duration := TimeDelta.hours (data.hours + data.days * 24)
    match ← (service.lease user.id user.groups data.hostsIds duration).attempt with
    | .ok _ => return .redirect none "/hosts"
    | .error e => return .redirect (some (.error, e.message)) "/hosts"

def leaseRandom (service : HostsService) (user : AuthUser) (groupId : GroupId) (form : Form) :
    Task Infallible PageResponse :=
  match LeaseForm.decode form with
  | .error e => return .rejected e
  | .ok data => do
    let duration := TimeDelta.hours (data.hours + data.days * 24)
    match ← (service.leaseRandom user.id user.groups duration groupId).attempt with
    | .ok _ => return .redirect none "/hosts"
    | .error e => return .redirect (some (.error, e.message)) "/hosts"

/-- A release that fails is unwrapped. -/
def releaseHosts (user : AuthUser) (form : Form) : Task Infallible PageResponse :=
  match ReleaseForm.decode form with
  | .error e => return .rejected e
  | .ok data => do
    match ← (HostsService.free user.id data.hostsIds).attempt with
    | .ok () => return .redirect none "/hosts"
    | .error _ => Task.panic "called `Result::unwrap()` on an `Err` value"

def releaseAll (user : AuthUser) : Task Infallible PageResponse := do
  match ← (HostsService.freeAll user.id).attempt with
  | .ok () => return .redirect none "/hosts"
  | .error _ => Task.panic "called `Result::unwrap()` on an `Err` value"

end Page

/-! ## All of them, and logging in -/

/-- What is answered to a request. -/
inductive Answer where
  | api (response : ApiResponse)
  | tool (response : ToolResponse)
  | page (response : PageResponse)
  /-- A press of a button: nothing is done, the press is confirmed, or the message that had the
      button is replaced by what `extend_user_hosts` returned, or by its error. -/
  | ignored
  | confirmed
  | edited (result : Except AnyError Extended)
  deriving DecidableEq

/-- `handle_extend_callback`, up to what it tells Telegram. -/
def answerExtendCallback (tgUserId : String) (data : Option String) : Task Infallible Answer :=
  match callbackHours data with
  | none => return .ignored
  | some hours =>
    if hours ≤ 0 then return .confirmed
    else do
      let result ← (extendUserHosts tgUserId hours).attempt
      return .edited result

/-- The handler of a request. -/
def Request.handle (service : HostsService) (user : AuthUser) : Request → Task Infallible Answer
  | .pageLeaseHosts form => do return .page (← Page.leaseHosts service user form)
  | .pageLeaseRandom groupId form => do return .page (← Page.leaseRandom service user groupId form)
  | .pageReleaseHosts form => do return .page (← Page.releaseHosts user form)
  | .pageReleaseAll => do return .page (← Page.releaseAll user)
  | .apiLeaseHosts body => do return .api (← Api.leaseHosts service user body)
  | .apiLeaseRandom body => do return .api (← Api.leaseRandom service user body)
  | .apiReleaseHosts body => do return .api (← Api.releaseHosts user body)
  | .apiReleaseAll => do return .api (← Api.releaseAll user)
  | .toolLeaseHosts args => do return .tool (← TachikomaMcp.leaseHosts service user args)
  | .toolLeaseRandomHost args => do return .tool (← TachikomaMcp.leaseRandomHost service user args)
  | .toolReleaseHosts args => do return .tool (← TachikomaMcp.releaseHosts user args)
  | .toolReleaseAllHosts => do return .tool (← TachikomaMcp.releaseAllHosts user)
  | .extendCallback tgAccount data => answerExtendCallback (tgUserId tgAccount) data

/-- How `login` (`src/web/auth/login.rs`) goes on after `Backend::authenticate`: with a session for
    the user, or back to the form with a message. That the store of the sessions fails then, which
    is answered with 500, is left out. -/
inductive LoginAnswer where
  | session (user : AuthUser)
  | redirect (flash : FlashLevel × String) (uri : String)
  deriving DecidableEq

def login (username password : String) : Task Infallible LoginAnswer := do
  match ← (authenticate username password).attempt with
  | .ok (some user) => return .session user
  | .ok none => return .redirect (.error, "Wrong credentials") "/login"
  | .error _ => return .redirect (.error, "Something went wrong") "/login"

/-! ## Messages to the bot (`src/bot/handlers.rs`) -/

/-- What `main_state_handler` replies. -/
inductive Reply where
  /-- `"Telegram successfully linked for user '{}'"`. -/
  | linked (email : String)
  /-- `"User for this link code not found"`. -/
  | notFound
  deriving DecidableEq, Repr

/-- The link code in a message: its text without blanks and quotes around it. -/
def linkCode (text : Option String) : String :=
  Text.trimMatches (fun c => c == ' ' || c == '"') (text.getD "")

/-- `main_state_handler` up to its reply; a message of nobody is refused. -/
def mainStateHandler (sender : Option UInt64) (text : Option String) : Task AnyError Reply :=
  match sender with
  | none => Task.throw (.context "Message without user_id")
  | some userId => do
    let user ← (UsersService.linkUser (linkCode text) (tgUserId userId)).mapErr
      fun _ => .context "Failed user link"
    match user with
    | some user => return .linked user.email
    | none => return .notFound

end Tachikoma
