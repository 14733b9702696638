/-! Words of the recipe language with a meaning of their own. -/
namespace CookbookAtlas.Recipe

def builtinResources : List String :=
  ["alternatives", "apt_package", "apt_repository", "apt_update", "bash", "batch",
    "bff_package", "breakpoint", "chef_gem", "chef_handler", "chocolatey_package",
    "cookbook_file", "cron", "cron_d", "csh", "directory", "dnf_package", "dpkg_package",
    "execute", "file", "freebsd_package", "gem_package", "git", "group", "homebrew_package",
    "hostname", "http_request", "ifconfig", "kernel_module", "link", "locale", "log", "mount",
    "notify_group", "ohai", "openssl_x509_certificate", "package", "perl", "powershell_script",
    "python", "reboot", "registry_key", "remote_directory", "remote_file", "route",
    "rpm_package", "ruby", "ruby_block", "script", "selinux_boolean", "service", "snap_package",
    "ssh_known_hosts_entry", "subversion", "sudo", "swap_file", "sysctl", "systemd_unit",
    "template", "timezone", "user", "windows_package", "windows_service", "yum_package",
    "yum_repository", "zypper_package"]

/-- Methods with an underscore in their name that call no resource. -/
def helperMethods : List String :=
  ["action_class", "allowed_actions", "attribute", "chef_version", "chef_version_for_provides",
    "converge_by", "converge_if_changed", "current_resource", "data_bag", "data_bag_item",
    "declare_resource", "default_action", "delete_resource", "edit_resource",
    "encrypted_data_bag_item", "find_resource", "include_recipe", "issues_url",
    "load_current_value", "long_description", "new_resource", "ohai_version",
    "require_relative", "resource_name", "run_context", "set_or_return", "shell_out",
    "source_url", "unified_mode", "use_inline_resources", "value_for_platform",
    "value_for_platform_family", "with_run_context"]

def knownProperties : List String :=
  ["action", "backup", "code", "command", "content", "cookbook", "creates", "cwd",
    "environment", "group", "home", "ignore_failure", "manage_home", "mode", "not_if",
    "notifies", "only_if", "options", "owner", "package_name", "path", "recursive", "retries",
    "sensitive", "shell", "source", "subscribes", "supports", "user", "variables", "version"]

def isBuiltin (word : String) : Bool := builtinResources.contains word
def isHelper (word : String) : Bool := helperMethods.contains word
def isKnownProperty (word : String) : Bool := knownProperties.contains word

end CookbookAtlas.Recipe
