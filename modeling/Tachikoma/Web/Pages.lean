import Tachikoma.Lib.Markup
import Tachikoma.Logic.ApiTokens
import Tachikoma.Web.Auth

/-!
# The page of API tokens (`src/templates/tokens.html`, `src/web/tokens.rs`)

The templates, with their literal text as the files have it. All of them are declared with `escape =
"none"`, which puts a text into a page as it is. `askama` drops the newline that a file ends with,
and the blanks between `match` and its first `when`.
-/

set_option autoImplicit false

namespace Tachikoma

open Markup

/-- What a page is rendered from. -/
class Template (T : Type) where
  pieces : T → List Piece

/-- `Template::render`. -/
def Template.page {T : Type} [Template T] (page : T) : String := render (pieces page)

/-! ## `tokens.html` -/

/-- `Display`. -/
def ApiTokenId.display (id : ApiTokenId) : String := toString id.val.toInt

structure TokensTokenInfo where
  id : ApiTokenId
  name : Option String
  createdAt : String
  deriving DecidableEq, Repr

structure TokensPage where
  tokens : List TokensTokenInfo
  createdToken : Option String
  error : Option String
  deriving DecidableEq, Repr

namespace TokensPage

def errorPieces : Option String → List Piece
  | none => []
  | some error =>
    [.text "
        <div>
            <p style=\"color:red;\"><i>",
      .hole error,
      .text "</i></p>
        </div>
        "]

def createdPieces : Option String → List Piece
  | none => []
  | some createdToken =>
    [.text "
        <fieldset class=\"space-y-6 rounded-xl bg-black/5 dark:bg-white/5 p-6 sm:p-10\">
            <p class=\"text-base/7 font-semibold\">New API token</p>
            <p class=\"text-sm/6 font-medium\">Copy this token now. It will not be shown again.</p>
            <code class=\"block break-all text-sm/6 bg-black/10 dark:bg-white/10 p-3 rounded-lg\">",
      .hole createdToken,
      .text "</code>
        </fieldset>
        "]

def namePieces : Option String → List Piece
  | some name =>
    [.text "
                            ",
      .hole name,
      .text "
                            "]
  | none =>
    [.text "
                            —
                            "]

/-- A round of the loop over the tokens. -/
def tokenPieces (token : TokensTokenInfo) : List Piece :=
  List.flatten [
    [.text "
                <li class=\"flex flex-wrap items-center justify-between gap-3 text-sm/6\">
                    <div>
                        <p class=\"font-medium\">
                            "],
    namePieces token.name,
    [.text "
                        </p>
                        <p class=\"text-gray-500 dark:text-gray-400\">created ",
      .hole token.createdAt,
      .text "</p>
                    </div>
                    <form method=\"post\" action=\"/tokens/",
      .hole token.id.display,
      .text "/revoke\"
                        onsubmit=\"return confirm('Revoke this token?');\">
                        <button
                            class=\"inline-flex items-center gap-2 rounded-md bg-gray-300 dark:bg-gray-700 py-1.5 px-3 text-sm/6 font-semibold shadow-inner shadow-white/10\"
                            type=\"submit\">Revoke</button>
                    </form>
                </li>
                "]]

def listPieces (tokens : List TokensTokenInfo) : List Piece :=
  if tokens = [] then
    [.text "
            <p class=\"text-sm/6 font-medium\">No tokens yet.</p>
            "]
  else
    List.flatten [
      [.text "
            <ul class=\"space-y-3\">
                "],
      tokens.flatMap tokenPieces,
      [.text "
            </ul>
            "]]

end TokensPage

instance : Template TokensPage where
  pieces self := List.flatten [
    [.text "<div class=\"flex flex-col place-self-center py-12 w-9/12\">
    <div class=\"flex flex-col gap-4 place-self-center py-6 w-full\">
        "],
    TokensPage.errorPieces self.error,
    [.text "
        "],
    TokensPage.createdPieces self.createdToken,
    [.text "
        <fieldset class=\"space-y-6 rounded-xl bg-black/5 dark:bg-white/5 p-6 sm:p-10\">
            <p class=\"text-base/7 font-semibold\">Create API token</p>
            <form method=\"post\" action=\"/tokens\" class=\"space-y-4\">
                <div>
                    <label for=\"name\" class=\"text-sm/6 font-medium\">Name (optional)</label>
                    <input
                        class=\"ml-2 appearance-none rounded-lg border-none bg-black/5 dark:bg-white/5 py-1.5 px-3 text-sm/6\"
                        type=\"text\" id=\"name\" name=\"name\" placeholder=\"e.g. laptop, CI\">
                </div>
                <button
                    class=\"inline-flex items-center gap-2 rounded-md bg-gray-300 dark:bg-gray-700 py-1.5 px-3 text-sm/6 font-semibold shadow-inner shadow-white/10\"
                    type=\"submit\">Create token</button>
            </form>
        </fieldset>
        <fieldset class=\"space-y-6 rounded-xl bg-black/5 dark:bg-white/5 p-6 sm:p-10\">
            <p class=\"text-base/7 font-semibold\">Your tokens</p>
            "],
    TokensPage.listPieces self.tokens,
    [.text "
        </fieldset>
    </div>
</div>"]]

/-! ## `hosts_page_base.html`, which extends `base.html` -/

structure UserInfo where
  login : String
  groups : List String
  tgLinked : Bool
  link : String
  deriving DecidableEq, Repr

/-- `From<User>`. -/
def UserInfo.ofAuthUser (user : AuthUser) : UserInfo :=
  ⟨user.username, user.groups, user.tgHandle.isSome, user.link⟩

structure AppInfo where
  version : String
  deriving DecidableEq, Repr

structure HostsPage (T : Type) where
  page : T
  user : UserInfo
  authLink : Option String
  appInfo : AppInfo

/-- The file around its block `content`. -/
def basePieces (content : List Piece) : List Piece :=
  List.flatten [
    [.text "<!DOCTYPE html>
<html class=\"dark\">

<head>
  <meta charset=\"utf-8\" />
  <title>Tachikoma</title>

  <link rel=\"icon\" href=\"/assets/tachikoma.png\">
  <script src=\"/assets/htmx.min.js\"></script>
  <link href=\"/assets/tailwindcss.css\" rel=\"stylesheet\">
</head>

<body class=\"relative bg-white dark:bg-slate-800\">
  "],
    content,
    [.text "
</body>

</html>"]]

namespace HostsPage

def linkPieces (link : String) : Option String → List Piece
  | some authLink =>
    [.text "
            <p class=\"text-sm/6 font-medium\">To link your account send code
                \"",
      .hole link,
      .text "\" to the <a class=\"text-blue-600 visited:text-purple-600\" href=\"",
      .hole authLink,
      .text "\" target=\"_blank\">",
      .hole authLink,
      .text "</a></p>
            "]
  | none =>
    [.text "
            "]

/-- A round of the loop over the groups. -/
def groupPieces (group : String) : List Piece :=
  [.text "
                <p class=\"text-sm/6 font-medium\"> - \"",
    .hole group,
    .text "\" </p>
                "]

end HostsPage

instance {T : Type} [Template T] : Template (HostsPage T) where
  pieces self := basePieces (List.flatten [
    [.text "

<div
    class=\"relative bg-transparent min-h-screen flex flex-col overflow-hidden py-6 sm:py-12 text-gray-900 dark:text-gray-200\">
    <header class=\"absolute inset-x-0 top-0 z-50\">
        <nav class=\"flex items-center justify-between p-6 px-8 text-gray-900 dark:text-gray-200\" aria-label=\"Global\">
            <div class=\"flex gap-x-12\">
                <a href=\"/hosts\" class=\"text-sm font-semibold leading-6\">Lease hosts</a>
                <a href=\"/hosts/all\" class=\"text-sm font-semibold leading-6\">All hosts</a>
            </div>
            <div class=\"flex gap-x-12 justify-end\">
                <button><a id=\"account-dialog-open\" class=\"text-sm font-semibold leading-6\">Account</a></button>
                <a href=\"/tokens\" class=\"text-sm font-semibold leading-6\">API tokens</a>
                <a href=\"/logout\" class=\"text-sm font-semibold leading-6\">Logout</a>
            </div>
        </nav>
    </header>
    "],
    Template.pieces self.page,
    [.text "
    <div class=\"fixed bottom-0 left-0 right-0 mx-auto w-fit text-gray-400 dark:text-gray-600\">Version: ",
      .hole self.appInfo.version,
      .text "</div>
</div>
<dialog id=\"account-dialog\" style=\"margin: revert;\" class=\"rounded-xl bg-black/5 dark:bg-white/5\">
    <div class=\"bg-white dark:bg-slate-800 text-gray-900 dark:text-gray-200\">
        <fieldset class=\"space-y-6 p-6 sm:p-10\">
            <p class=\"text-base/7 font-semibold\">Account</p>
            <p class=\"text-sm/6 font-medium\"> Login: ",
      .hole self.user.login,
      .text " </p>
            <p class=\"text-sm/6 font-medium\"> Telegram linked: ",
      .hole (toString self.user.tgLinked),
      .text " </p>
            "],
    HostsPage.linkPieces self.user.link self.authLink,
    [.text "
            <fieldset class=\"space-y-1\">
                <p class=\"text-base/7 font-semibold\">Groups:</p>
                "],
    self.user.groups.flatMap HostsPage.groupPieces,
    [.text "
            </fieldset>
            <br>
            <button id=\"account-dialog-close\"
                class=\"inline-flex items-center gap-2 rounded-md bg-gray-300 dark:bg-gray-700 py-1.5 px-3 text-sm/6 font-semibold shadow-inner shadow-white/10\"
                autofocus>Close</button>
        </fieldset>
    </div>
</dialog>
<script>
    var accountDialog = document.getElementById(\"account-dialog\");
    document.getElementById(\"account-dialog-open\").addEventListener(\"click\", () => \x7b
        accountDialog.showModal();
    \x7d);

    document.getElementById(\"account-dialog-close\").addEventListener(\"click\", () => \x7b
        accountDialog.close();
    \x7d);
</script>
"]])

/-! ## `tokens_page` -/

/-- `axum_flash::Level`. -/
inductive FlashLevel where
  | debug
  | info
  | success
  | warning
  | error
  deriving DecidableEq, Repr

/-- The loop over the messages of the last answer: the token that was created, and an error. -/
def readFlashes : List (FlashLevel × String) → Option String → Option String →
    Option String × Option String
  | [], createdToken, error => (createdToken, error)
  | (.success, msg) :: flashes, _, error => readFlashes flashes (some msg) error
  | (_, msg) :: flashes, createdToken, _ => readFlashes flashes createdToken (some msg)

/-- The message that `create_token` leaves for the next page. -/
def createTokenFlash : Except ApiTokenError CreatedApiToken → FlashLevel × String
  | .ok created => (.success, created.plaintext)
  | .error e => (.error, e.message)

/-- And `revoke_token`, which has nothing to say when it succeeds. -/
def revokeTokenFlash : Except ApiTokenError Unit → Option (FlashLevel × String)
  | .ok () => none
  | .error e => some (.error, e.message)

/-- The page that `tokens_page` renders; `rfc3339` is `DateTime::to_rfc3339`. -/
def tokensPage (rfc3339 : Time → String) (appInfo : AppInfo) (authLink : Option String)
    (tokens : Except ApiTokenError (List ApiToken)) (flashes : List (FlashLevel × String))
    (user : AuthUser) : HostsPage TokensPage :=
  -- `unwrap_or_default`
  let tokens := match tokens with
    | .ok tokens => tokens
    | .error _ => []
  let (createdToken, error) := readFlashes flashes none none
  { page := {
      tokens := tokens.map fun t => ⟨t.id, t.name, rfc3339 t.createdAt⟩
      createdToken
      error }
    user := .ofAuthUser user
    authLink
    appInfo }

end Tachikoma
